import Mathlib.Tactic

/-! Doubly linked segments in a memory.

    `nxt` and `prv` read the two link fields of an address. `Linked nxt prv p l n` says that the
    addresses of `l`, in order, are linked both ways, that the first one points back to `p` and the
    last one on to `n`. A segment is cut at any point (`linked_append`), and only depends on the
    link fields of its own addresses (`Linked.frame`), so an edit is checked on the nodes it
    touches. -/

namespace TypeOS.Segment

variable {A : Type} {nxt prv nxt' prv' : A → A}

/-- The addresses `l` are linked both ways between `p` and `n`. -/
def Linked (nxt prv : A → A) : A → List A → A → Prop
  | _, [], _ => True
  | p, a :: l, n => prv a = p ∧ nxt a = l.headD n ∧ Linked nxt prv a l n

@[simp] theorem linked_nil (p n : A) : Linked nxt prv p [] n := trivial

@[simp] theorem linked_cons (p n a : A) (l : List A) :
    Linked nxt prv p (a :: l) n ↔ prv a = p ∧ nxt a = l.headD n ∧ Linked nxt prv a l n := Iff.rfl

theorem headD_append (xs ys : List A) (n : A) :
    (xs ++ ys).headD n = xs.headD (ys.headD n) := by
  cases xs <;> simp

/-- A segment is two segments that point at each other across the seam. -/
theorem linked_append : ∀ (p n : A) (xs ys : List A),
    Linked nxt prv p (xs ++ ys) n ↔
      Linked nxt prv p xs (ys.headD n) ∧ Linked nxt prv (xs.getLastD p) ys n
  | p, n, [], ys => by simp [List.getLastD]
  | p, n, x :: xs, ys => by
    simp only [List.cons_append, linked_cons, linked_append x n xs ys, headD_append,
      List.getLastD_cons, and_assoc]

/-- A node in the middle of a segment links the two halves. -/
theorem linked_cut (p n a : A) (xs ys : List A) :
    Linked nxt prv p (xs ++ a :: ys) n ↔
      Linked nxt prv p xs a ∧ prv a = xs.getLastD p ∧ nxt a = ys.headD n ∧
        Linked nxt prv a ys n := by
  rw [linked_append, linked_cons, List.headD_cons]

/-- Link fields of other addresses do not matter to a segment. -/
theorem Linked.frame : ∀ {p n : A} {l : List A}, Linked nxt prv p l n →
    (∀ a ∈ l, nxt' a = nxt a ∧ prv' a = prv a) → Linked nxt' prv' p l n
  | _, _, [], _, _ => trivial
  | _, _, a :: l, ⟨hp, hn, h⟩, hag => by
    obtain ⟨h1, h2⟩ := hag a (List.mem_cons_self ..)
    exact ⟨h2.trans hp, h1.trans hn, h.frame fun c hc => hag c (List.mem_cons_of_mem _ hc)⟩

/-- Two segments up to the same end from the same start are the same. -/
theorem Linked.unique {n : A} : ∀ {p p' : A} {l l' : List A}, Linked nxt prv p l n →
    Linked nxt prv p' l' n → l.headD n = l'.headD n → (∀ a ∈ l, a ≠ n) → (∀ a ∈ l', a ≠ n) → l = l'
  | _, _, [], [], _, _, _, _, _ => rfl
  | _, _, [], a :: _, _, _, he, _, hn => absurd he.symm (hn a (List.mem_cons_self ..))
  | _, _, a :: _, [], _, _, he, hn, _ => absurd he (hn a (List.mem_cons_self ..))
  | _, _, a :: l, b :: l', ⟨_, h1, h2⟩, ⟨_, h1', h2'⟩, he, hn, hn' => by
    obtain rfl : a = b := he
    rw [h2.unique h2' (h1.symm.trans h1') (fun c hc => hn c (List.mem_cons_of_mem _ hc))
      fun c hc => hn' c (List.mem_cons_of_mem _ hc)]

/-- Redirecting the last forward link moves the end of a segment. -/
theorem Linked.retarget {p n n' : A} {l : List A} (h : Linked nxt prv p l n)
    (hlast : ∀ a, l.getLast? = some a → nxt' a = n')
    (hnxt : ∀ a ∈ l, l.getLast? ≠ some a → nxt' a = nxt a)
    (hprv : ∀ a ∈ l, prv' a = prv a) (hnd : l.Nodup) : Linked nxt' prv' p l n' := by
  rcases List.eq_nil_or_concat l with rfl | ⟨l, b, rfl⟩
  · trivial
  rw [List.concat_eq_append] at *
  rw [linked_append] at h ⊢
  obtain ⟨h1, h2, -, -⟩ := h
  have hb : b ∉ l := fun hb => by
    have := List.nodup_append.mp hnd
    exact this.2.2 b hb b (by simp) rfl
  refine ⟨h1.frame fun a ha => ⟨hnxt a (by simp [ha]) ?_, hprv a (by simp [ha])⟩, ?_, ?_, trivial⟩
  · rintro he
    rw [List.getLast?_concat, Option.some.injEq] at he
    exact hb (he ▸ ha)
  · rw [hprv b (by simp)]; exact h2
  · exact hlast b (by simp)

/-- Redirecting the first backward link moves the start of a segment. -/
theorem Linked.reroot {p p' n : A} {l : List A} (h : Linked nxt prv p l n)
    (hfirst : ∀ a, l.head? = some a → prv' a = p')
    (hprv : ∀ a ∈ l, l.head? ≠ some a → prv' a = prv a)
    (hnxt : ∀ a ∈ l, nxt' a = nxt a) (hnd : l.Nodup) : Linked nxt' prv' p' l n := by
  cases l with
  | nil => trivial
  | cons b l =>
    obtain ⟨-, h2, h3⟩ := h
    have hb := (List.nodup_cons.mp hnd).1
    refine ⟨hfirst b rfl, (hnxt b (by simp)).trans h2, h3.frame fun a ha => ?_⟩
    refine ⟨hnxt a (by simp [ha]), hprv a (by simp [ha]) ?_⟩
    rintro he
    rw [List.head?_cons, Option.some.injEq] at he
    exact hb (he ▸ ha)

end TypeOS.Segment
