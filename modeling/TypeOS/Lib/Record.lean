import TypeOS.Lib.Bytes

/-! Records whose fields lie one after the other.

    A packed record is written as the little-endian bytes of its fields, and read by their widths alone. -/

namespace TypeOS.Bytes

/-- Fields, each with its width, one after the other. -/
def packRecord (fields : List (Nat × Nat)) : List UInt8 := fields.flatMap fun f => leBytes f.1 f.2

/-- The values of fields of these widths. -/
def readRecord : List Nat → List UInt8 → List Nat
  | [], _ => []
  | w :: ws, bytes => leNat (bytes.take w) :: readRecord ws (bytes.drop w)

variable {fields : List (Nat × Nat)}

@[simp] theorem length_packRecord (fields : List (Nat × Nat)) :
    (packRecord fields).length = (fields.map Prod.fst).sum := by
  induction fields with
  | nil => rfl
  | cons f fields ih =>
    rw [packRecord, List.flatMap_cons, List.length_append, length_leBytes, ← packRecord, ih, List.map_cons,
      List.sum_cons]

/-- Reading gives what was written, where the values fit. -/
theorem readRecord_packRecord (h : ∀ f ∈ fields, f.2 < 256 ^ f.1) :
    readRecord (fields.map Prod.fst) (packRecord fields) = fields.map Prod.snd := by
  induction fields with
  | nil => rfl
  | cons f fields ih =>
    obtain ⟨hf, hrest⟩ := List.forall_mem_cons.mp h
    have hlen : (leBytes f.1 f.2).length = f.1 := length_leBytes f.1 f.2
    rw [List.map_cons, List.map_cons, readRecord, packRecord, List.flatMap_cons, ← packRecord,
      List.take_left' hlen, List.drop_left' hlen, leNat_leBytes, Nat.mod_eq_of_lt hf, ih hrest]

end TypeOS.Bytes
