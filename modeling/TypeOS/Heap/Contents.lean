import TypeOS.Heap.Window

/-! What the owners of allocations find in them.

    `Objects` is the heap as its callers think of it: the allocations they hold, and the words they have
    stored in them since. The allocator keeps its headers in the same memory and rewrites them on every
    call, but never a word between two headers that is not free (`Spared`). So over any run of calls and
    stores, the memory holds for every owner what was stored last. -/

namespace TypeOS.Heap

variable {P : Type} {pg : Pager P} {h : HeapState P} {live : List (Nat × Nat)} {bs xs ys : List Block}
  {b c : Block} {m m' : Words} {head cur n size a : Nat}

/-! ### The heap of its callers -/

/-- The allocations that are held, and the words that were stored in them. -/
structure Objects where
  live : List (Nat × Nat)
  words : Nat → Option Nat

/-- The bytes that were asked for with `q`. -/
def Within (q : Nat × Nat) (a : Nat) : Prop := q.1 ≤ a ∧ a < q.1 + q.2

instance (q : Nat × Nat) (a : Nat) : Decidable (Within q a) := inferInstanceAs (Decidable (_ ∧ _))

/-- A new allocation, unless it is `NULL`. Nothing is stored in it yet. -/
def Objects.alloc (o : Objects) (p n : Nat) : Objects :=
  if p = 0 then o else { o with live := (p, n) :: o.live }

@[simp] theorem Objects.alloc_words (o : Objects) (p n : Nat) : (o.alloc p n).words = o.words := by
  rw [alloc]
  split <;> rfl

theorem Objects.alloc_live (o : Objects) (p n : Nat) {q : Nat × Nat} (hq : q ∈ o.live) :
    q ∈ (o.alloc p n).live := by
  rw [alloc]
  split
  · exact hq
  · exact List.mem_cons_of_mem _ hq

/-- An allocation is given back with what was stored in it. -/
def Objects.free (o : Objects) (q : Nat × Nat) : Objects where
  live := o.live.erase q
  words a := if Within q a then none else o.words a

def Objects.store (o : Objects) (a v : Nat) : Objects :=
  { o with words := Function.update o.words a (some v) }

/-- A run of calls and stores beside what its callers think of it. -/
inductive Serving (pg : Pager P) (m : Words) (p : P) : HeapState P → Objects → Prop
  | start : Serving pg m p (heapInit pg m p) ⟨[], fun _ => none⟩
  | kmalloc {h : HeapState P} {o : Objects} (n : Nat) (hr : Serving pg m p h o)
    (hn : n < 2 ^ 64) (hok : Safe pg h n) :
    Serving pg m p (kmalloc pg h n).2 (o.alloc (kmalloc pg h n).1 n)
  | kfreeNull {h : HeapState P} {o : Objects} (hr : Serving pg m p h o) : Serving pg m p (kfree h 0) o
  | kfree {h : HeapState P} {o : Objects} {q : Nat × Nat} (hr : Serving pg m p h o) (hq : q ∈ o.live) :
    Serving pg m p (kfree h q.1) (o.free q)
  | store {h : HeapState P} {o : Objects} {q : Nat × Nat} (a v : Nat) (hr : Serving pg m p h o)
    (hq : q ∈ o.live) (ha : a % 8 = 0) (hin : Within q a) :
    Serving pg m p { h with mem := Function.update h.mem a v } (o.store a v)

/-! ### Words that are no header -/

/-- `a` lies in no header of the list. -/
def Spared (bs : List Block) (a : Nat) : Prop := ∀ c ∈ bs, a < c.addr ∨ c.addr + headerSize ≤ a

/-- Four fields make a header. -/
theorem Spared.fields (hs : Spared bs a) (hc : c ∈ bs) :
    a ≠ c.addr ∧ a ≠ c.addr + 8 ∧ a ≠ c.addr + 16 ∧ a ≠ c.addr + 24 := by
  have := hs c hc
  simp only [headerSize] at this
  omega

/-- The bytes of a block are spared. -/
theorem BlockList.spared (h : BlockList m head cur bs) (hb : b ∈ bs) (hlo : b.payload ≤ a)
    (hhi : a < b.payload + b.size) : Spared bs a := by
  intro c hc
  rcases eq_or_ne b c with rfl | hne
  · exact .inr hlo
  have := h.apart_extent hb hc hne
  simp only [Block.payload, headerSize] at *
  omega

/-- What `coalesce` does twice leaves words alone that are no header. -/
theorem absorb_other {p c : Nat} (hp : a ≠ p ∧ a ≠ p + 16)
    (hn : blockNext m c ≠ 0 → a ≠ blockNext m c + 24) : absorb m p c a = m a := by
  have hlink : setNext (setSize m p (u64 (blockSize m p + (headerSize + blockSize m c)))) p
      (blockNext m c) a = m a := by
    rw [setNext, Function.update_of_ne hp.2, setSize, Function.update_of_ne hp.1]
  rw [absorb]
  split
  · rename_i h0
    rw [setPrev, Function.update_of_ne (hn h0), hlink]
  · exact hlink

namespace BlockList

/-- One block of the list takes over the bytes of another. -/
theorem absorb_spared (h : BlockList m head cur bs) (hb : b ∈ bs) (hc : c ∈ bs) (hs : Spared bs a) :
    absorb m b.addr c.addr a = m a := by
  have hself := hs.fields hb
  refine absorb_other ⟨hself.1, hself.2.2.1⟩ fun hne => ?_
  obtain ⟨xs, ys, rfl⟩ := List.append_of_mem hc
  obtain ⟨y, hy, he⟩ := h.next_mem hne
  rw [he]
  exact (hs.fields (by simp [hy])).2.2.2

theorem coalesceNext_spared (h : BlockList m head cur (xs ++ b :: ys)) (hs : Spared (xs ++ b :: ys) a) :
    Heap.coalesceNext m b.addr a = m a := by
  rw [Heap.coalesceNext]
  split
  · rename_i hif
    obtain ⟨y, hy, he⟩ := h.next_mem hif.1
    have hby : Apart b.addr y.addr := h.apart (by simp) (by simp [hy])
    have habs := h.absorb_spared (b := b) (c := y) (by simp) (by simp [hy]) hs
    rw [absorb] at habs
    simp only [he, blockNext_setSize _ (Apart.refl b.addr), blockNext_setSize _ hby, blockNext_setNext,
      if_true]
    exact habs
  · rfl

theorem coalescePrev_spared (h : BlockList m head cur (xs ++ b :: ys)) (hs : Spared (xs ++ b :: ys) a) :
    Heap.coalescePrev m b.addr a = m a := by
  rw [Heap.coalescePrev]
  split
  · rename_i hif
    rcases List.eq_nil_or_concat xs with rfl | ⟨xs, x, rfl⟩
    · exact absurd h.prev_eq hif.1
    rw [List.concat_eq_append] at *
    have hx : blockPrev m b.addr = x.addr := by rw [h.prev_eq]; simp
    have hxb : Apart x.addr b.addr := h.apart (by simp) (by simp)
    have hne : b.addr ≠ x.addr := by
      have := h.around.1 x (by simp)
      simp only [headerSize] at this
      omega
    have habs := h.absorb_spared (b := x) (c := b) (by simp) (by simp) hs
    rw [absorb] at habs
    simp only [hx, blockNext_setNext, if_neg hne, blockNext_setSize _ hxb]
    exact habs
  · rfl

end BlockList

/-! ### What a call leaves alone -/

/-- `kfree` rewrites headers only. -/
theorem kfree_spared (hb : Holds h bs) (hm : Mapped h) (ht : Taken bs b) (hs : Spared bs a) :
    (kfree h b.payload).mem a = h.mem a := by
  have hlim := hm.current_le.trans hm.end_le
  have hend := (hb.bounds ht.1).2
  have hblock : u64Sub b.payload headerSize = b.addr := by
    simp only [kernelHeapLimit, headerSize] at hlim hend
    rw [Block.payload, u64Sub_of_le (by simp only [headerSize]; omega)
      (by simp only [headerSize]; omega), Nat.add_sub_cancel]
  rw [kfree, if_neg (by simp [Block.payload]), hblock]
  obtain ⟨xs, ys, rfl⟩ := List.append_of_mem ht.1
  have hflag : setFree h.mem b.addr true a = h.mem a :=
    Function.update_of_ne (hs.fields (c := b) (by simp)).2.1 ..
  have hspared : ∀ {b' : Block}, b'.addr = b.addr → Spared (xs ++ b' :: ys) a := by
    intro b' he c hc
    rcases List.mem_append.mp hc with hc | hc
    · exact hs c (by simp [hc])
    rcases List.mem_cons.mp hc with rfl | hc
    · rw [he]
      exact hs b (by simp)
    · exact hs c (by simp [hc])
  have hfreed := hb.setFree true
  obtain ⟨b1, ys1, h1, ha1, -, hcase⟩ := hfreed.coalesceNext hlim
  -- what the first half leaves of the list lies where it was
  have hs1 : Spared (xs ++ b1 :: ys1) a := by
    intro c hc
    rcases hcase with ⟨rfl, rfl, -⟩ | ⟨d, -, rfl, -⟩
    · exact hspared ha1 c hc
    · refine hspared ha1 c ?_
      rcases List.mem_append.mp hc with hc | hc
      · simp [hc]
      · rcases List.mem_cons.mp hc with rfl | hc <;> simp [*]
  rw [← ha1] at h1
  have hprev := h1.coalescePrev_spared hs1
  rw [ha1] at hprev
  exact hprev.trans ((hfreed.coalesceNext_spared (hspared rfl)).trans hflag)

/-- A split writes in the block that is split, and the backward link of the next one. -/
theorem splitBlock_other {p : Nat} (hlt : p + 32 + blockSize m p < 2 ^ 64) (hsize : size < 2 ^ 63)
    (hout : a < p ∨ p + headerSize + blockSize m p ≤ a)
    (hnext : blockNext m p ≠ 0 → a ≠ blockNext m p + 24) : splitBlock m p size a = m a := by
  rw [splitBlock]
  split
  · rfl
  rename_i hbig
  rw [u64_of_lt (by simp only [headerSize, heapAlign]; omega)] at hbig
  simp only [headerSize, heapAlign] at hbig hout
  rw [u64_of_lt (by simp only [headerSize]; omega)]
  have hbn : Apart (p + 32 + size) p := by simp only [Apart, headerSize]; omega
  have hnn : Apart (p + 32 + size) (p + 32 + size) := Apart.refl _
  have hnew : a ≠ p + 32 + size ∧ a ≠ p + 32 + size + 8 ∧ a ≠ p + 32 + size + 16 ∧
      a ≠ p + 32 + size + 24 := by omega
  have hold : a ≠ p ∧ a ≠ p + 16 := by omega
  simp only [headerSize, blockNext_setPrev _ hnn, blockNext_setNext, if_true, blockNext_setFree _ hbn,
    blockNext_setSize _ hbn]
  rw [setNext, Function.update_of_ne hold.2, setSize, Function.update_of_ne hold.1]
  have hwrite : ∀ v w u, setPrev (setNext (setFree (setSize m (p + 32 + size) v) (p + 32 + size) true)
      (p + 32 + size) w) (p + 32 + size) u a = m a := by
    intro v w u
    rw [setPrev, Function.update_of_ne hnew.2.2.2, setNext, Function.update_of_ne hnew.2.2.1, setFree,
      Function.update_of_ne hnew.2.1, setSize, Function.update_of_ne hnew.1]
  split
  · rename_i h0
    rw [setPrev, Function.update_of_ne (hnext h0), hwrite]
  · exact hwrite ..

/-- A split of a block of the list leaves alone what is spared outside the block. -/
theorem BlockList.split_spared (h : BlockList m head cur bs) (size : Nat) (hcur : cur ≤ kernelHeapLimit) (hb : b ∈ bs)
    (hsize : size < 2 ^ 63) (hs : Spared bs a)
    (hout : a < b.addr ∨ b.addr + headerSize + b.size ≤ a) : splitBlock m b.addr size a = m a := by
  have hend := (h.bounds hb).2
  have hsz := (h.header b hb).1
  simp only [headerSize, kernelHeapLimit] at hend hcur
  refine splitBlock_other (by omega) hsize (by rw [hsz]; exact hout) fun hne => ?_
  obtain ⟨xs, ys, rfl⟩ := List.append_of_mem hb
  obtain ⟨y, hy, he⟩ := h.next_mem hne
  rw [he]
  exact (hs.fields (by simp [hy])).2.2.2

/-- The tail extension writes a header behind the window, and the link to it. -/
theorem appendBlock_spared (hb : Holds h bs) {expand : Nat}
    (hlim : h.heapCurrent + expand ≤ kernelHeapLimit) (hs : Spared bs a)
    (hout : a < h.heapCurrent ∨ h.heapCurrent + headerSize ≤ a) :
    (appendBlock h expand).mem a = h.mem a := by
  simp only [headerSize] at hout
  have hput : putHeader h.mem h.heapCurrent (expand - headerSize) a = h.mem a := by
    rw [putHeader, setPrev, Function.update_of_ne (by omega), setNext, Function.update_of_ne (by omega),
      setFree, Function.update_of_ne (by omega), setSize, Function.update_of_ne (by omega)]
  rcases List.eq_nil_or_concat bs with rfl | ⟨xs, b, rfl⟩
  · have hhead : h.heapHead = 0 := hb.head_eq
    rw [appendBlock]
    simp only [hhead, ne_eq, not_true_eq_false, if_false]
    exact hput
  · rw [List.concat_eq_append] at *
    have hold : ∀ c ∈ xs ++ [b], c.addr + 32 ≤ h.heapCurrent := by
      intro c hc
      have := (hb.bounds hc).2
      simp only [headerSize] at this
      omega
    rw [BlockList.appendBlock_concat hb (fun c hc => putHeader_other _ ?_ ?_) hlim]
    · have hlink : linkTail (putHeader h.mem h.heapCurrent (expand - headerSize)) b.addr h.heapCurrent a =
          h.mem a := by
        rw [linkTail, setPrev, Function.update_of_ne (by omega), setNext,
          Function.update_of_ne (hs.fields (c := b) (by simp)).2.2.1, hput]
      exact hlink
    · have := hold c hc
      simp only [Apart, headerSize]
      omega
    · have := hold c hc
      omega

section
variable (pg : Pager P) (hb : Holds h bs) (hm : Mapped h) (hpos : 0 < n) (hn : n ≤ kernelHeapLimit)
  (ht : Taken bs c) (hlo : c.payload ≤ a) (hhi : a < c.payload + c.size)
include hb hm hpos hn ht hlo hhi

/-- A free block that is cut is no taken one. -/
theorem kmalloc_takes_spared
    (hfind : (bs.find? fun b => b.free && decide (alignUp n heapAlign ≤ b.size)) = some b) :
    (kmalloc pg h n).2.mem a = h.mem a := by
  have hs : Spared bs a := hb.spared ht.1 hlo hhi
  rw [kmalloc_found pg hb hm (by omega) hfind]
  have hbm := List.mem_of_find?_eq_some hfind
  have hfree := List.find?_some hfind
  rw [Bool.and_eq_true] at hfree
  have hne : c ≠ b := by
    rintro rfl
    exact absurd (ht.2.symm.trans hfree.1) (by simp)
  have hout := hb.apart_extent ht.1 hbm hne
  obtain ⟨-, hn2, -⟩ := alignUp_spec (n := n) (a := heapAlign) (by decide)
    (by simp only [heapAlign, kernelHeapLimit] at hn ⊢; omega)
  obtain ⟨xs, ys, rfl⟩ := List.append_of_mem hbm
  have hs' : Spared (xs ++ { b with free := false } :: ys) a := by
    intro d hd
    rcases List.mem_append.mp hd with hd | hd
    · exact hs d (by simp [hd])
    rcases List.mem_cons.mp hd with rfl | hd
    · exact hs b (by simp)
    · exact hs d (by simp [hd])
  have hsplit := (hb.setFree false).split_spared (alignUp n heapAlign)
    (b := { b with free := false }) (hm.current_le.trans hm.end_le) (by simp)
    (by simp only [heapAlign, kernelHeapLimit] at hn hn2 ⊢; omega) hs'
    (by simp only [Block.payload, headerSize] at *; omega)
  exact hsplit.trans (Function.update_of_ne (hs.fields (c := b) (by simp)).2.1 ..)

/-- A new block lies behind the taken ones. -/
theorem kmalloc_appends_spared
    (hfind : (bs.find? fun b => b.free && decide (alignUp n heapAlign ≤ b.size)) = none)
    (hroom : h.heapCurrent + extension n ≤ kernelHeapLimit) :
    (kmalloc pg h n).2.mem a = h.mem a := by
  have hs : Spared bs a := hb.spared ht.1 hlo hhi
  have hcend := (hb.bounds ht.1).2
  obtain ⟨-, hn2, -⟩ := alignUp_spec (n := n) (a := heapAlign) (by decide)
    (by simp only [heapAlign, kernelHeapLimit] at hn ⊢; omega)
  obtain ⟨he1, -⟩ := expandBytes_paged (alignUp n heapAlign)
  rw [kmalloc_extends pg hb hm (by omega) hfind]
  obtain ⟨hsame, -, -⟩ := heapMapMore_spec pg hm he1
  rw [expandBytes_alignUp (by simp only [kernelHeapLimit] at hn; omega)] at *
  have hfits := extension_le n
  rcases hmm : heapMapMore pg h (extension n) with ⟨ok, h'⟩
  rw [hmm] at hsame
  cases ok with
  | false => exact congrFun hsame.1 a
  | true =>
    obtain ⟨hmem, hhead, hcur⟩ := hsame
    have hb' : Holds h' bs := SameBlocks.holds ⟨hmem, hhead, hcur⟩ hb
    have hroom' : h'.heapCurrent + extension n ≤ kernelHeapLimit := by rw [hcur]; exact hroom
    have hbehind : a < h'.heapCurrent := by
      simp only [Block.payload, headerSize] at *
      omega
    have hal : extension n % heapAlign = 0 := by simp only [heapAlign, pageSize] at he1 ⊢; omega
    have happ := hb'.append (by omega) hal hroom'
    have hcur' : (appendBlock h' (extension n)).heapCurrent ≤ kernelHeapLimit := by
      have hlt : h'.heapCurrent + extension n < 2 ^ 64 := by
        simp only [kernelHeapLimit] at hroom'
        omega
      rw [appendBlock]
      split <;> exact (u64_of_lt hlt).le.trans hroom'
    have hs' : Spared (bs ++ [⟨h'.heapCurrent, extension n - headerSize, false⟩]) a := by
      intro d hd
      rcases List.mem_append.mp hd with hd | hd
      · exact hs d hd
      · rw [List.mem_singleton.mp hd]
        exact .inl hbehind
    have hsplit := happ.split_spared (alignUp n heapAlign)
      (b := ⟨h'.heapCurrent, extension n - headerSize, false⟩) hcur' (by simp)
      (by simp only [heapAlign, kernelHeapLimit] at hn hn2 ⊢; omega) hs' (.inl hbehind)
    have htail := appendBlock_spared hb' hroom' hs (.inl hbehind)
    rw [← congrFun hmem a, ← htail, ← hsplit, ← hcur]

end

/-- `kmalloc` leaves the bytes of every taken block alone. -/
theorem kmalloc_spared (pg : Pager P) (hb : Holds h bs) (hm : Mapped h) (hok : Safe pg h n)
    (ht : Taken bs c) (hlo : c.payload ≤ a) (hhi : a < c.payload + c.size) :
    (kmalloc pg h n).2.mem a = h.mem a := by
  rcases Nat.eq_zero_or_pos n with rfl | hpos
  · rw [kmalloc, if_pos rfl]
  rcases hok.cases hb hm with hroom | ⟨-, hsame, -⟩
  · have hlim := hm.current_le.trans hm.end_le
    have hn : n ≤ kernelHeapLimit := by
      rcases hroom with ⟨b, hbm, -, hfit⟩ | hroom
      · have := (hb.bounds hbm).2
        omega
      · have := extension_le n
        omega
    cases hfind : bs.find? fun b => b.free && decide (alignUp n heapAlign ≤ b.size) with
    | some b => exact kmalloc_takes_spared pg hb hm hpos hn ht hlo hhi hfind
    | none =>
      refine kmalloc_appends_spared pg hb hm hpos hn ht hlo hhi hfind (hroom.resolve_left ?_)
      rintro ⟨b, hbm, hbf, hfit⟩
      have hno := List.find?_eq_none.mp hfind b hbm
      have hal := (hb.aligned b hbm).2
      obtain ⟨-, hn2, hn3⟩ := alignUp_spec (n := n) (a := heapAlign) (by decide)
        (by simp only [heapAlign, kernelHeapLimit] at hn ⊢; omega)
      simp only [hbf, Bool.true_and, decide_eq_true_eq, heapAlign] at hno hal hn2 hn3
      omega
  · exact congrFun hsame.1 a

/-! ### Runs -/

/-- The memory holds what the owners have stored, and nothing is stored outside what they hold. -/
structure Keeps (h : HeapState P) (o : Objects) : Prop where
  reads : ∀ a v, o.words a = some v → h.mem a = v
  held : ∀ a v, o.words a = some v → ∃ q ∈ o.live, Within q a

/-- The callers see a run of the heap. -/
theorem Serving.run {p : P} {o : Objects} (hr : Serving pg m p h o) :
    RunsFrom pg (fun h n => n < 2 ^ 64 ∧ Safe pg h n) (heapInit pg m p) h o.live := by
  induction hr with
  | start => exact .start
  | kmalloc n _ hn hok ih =>
    have hrun := RunsFrom.kmalloc n ih ⟨hn, hok⟩
    rw [Objects.alloc]
    split_ifs at hrun ⊢ <;> exact hrun
  | kfreeNull _ ih => exact .kfreeNull ih
  | kfree _ hq ih => exact .kfree ih hq
  | store a v _ hq ha hin ih => exact .store a v ih hq ha hin.1 hin.2

section
variable {o : Objects}

/-- A word in an allocation lies in its block. -/
theorem HeapInv.block (hi : HeapInv h o.live bs) {q : Nat × Nat} (hq : q ∈ o.live) (hin : Within q a) :
    ∃ b, Taken bs b ∧ b.payload = q.1 ∧ b.payload ≤ a ∧ a < b.payload + b.size := by
  obtain ⟨b, ht, hp, hsize⟩ := hi.exactly.taken q hq
  exact ⟨b, ht, hp, hp ▸ hin.1, by have := hin.2; omega⟩

theorem Keeps.kmalloc (hk : Keeps h o) (hi : HeapInv h o.live bs) (hok : Safe pg h n) :
    Keeps (kmalloc pg h n).2 (o.alloc (kmalloc pg h n).1 n) := by
  refine ⟨fun a v ha => ?_, fun a v ha => ?_⟩
  · rw [Objects.alloc_words] at ha
    obtain ⟨q, hq, hin⟩ := hk.held a v ha
    obtain ⟨b, ht, -, hlo, hhi⟩ := hi.block hq hin
    rw [kmalloc_spared pg hi.holds hi.mapped hok ht hlo hhi]
    exact hk.reads a v ha
  · rw [Objects.alloc_words] at ha
    obtain ⟨q, hq, hin⟩ := hk.held a v ha
    exact ⟨q, o.alloc_live _ n hq, hin⟩

theorem Keeps.kfree (hk : Keeps h o) (hi : HeapInv h o.live bs) {q : Nat × Nat} (hq : q ∈ o.live) :
    Keeps (kfree h q.1) (o.free q) := by
  obtain ⟨b, ht, hp, -⟩ := hi.exactly.taken q hq
  have hwords : ∀ {a v}, (o.free q).words a = some v → ¬ Within q a ∧ o.words a = some v := by
    intro a v ha
    rw [Objects.free] at ha
    simp only at ha
    split_ifs at ha with hin
    exact ⟨hin, ha⟩
  refine ⟨fun a v ha => ?_, fun a v ha => ?_⟩
  · obtain ⟨-, ha⟩ := hwords ha
    obtain ⟨r, hr, hin⟩ := hk.held a v ha
    obtain ⟨c, hc, -, hlo, hhi⟩ := hi.block hr hin
    rw [← hp, kfree_spared hi.holds hi.mapped ht (hi.holds.spared hc.1 hlo hhi)]
    exact hk.reads a v ha
  · obtain ⟨hout, ha⟩ := hwords ha
    obtain ⟨r, hr, hin⟩ := hk.held a v ha
    refine ⟨r, (List.mem_erase_of_ne ?_).mpr hr, hin⟩
    rintro rfl
    exact hout hin

theorem Keeps.store (hk : Keeps h o) {q : Nat × Nat} (hq : q ∈ o.live) (hin : Within q a) (v : Nat) :
    Keeps { h with mem := Function.update h.mem a v } (o.store a v) := by
  refine ⟨fun d w hd => ?_, fun d w hd => ?_⟩ <;> rw [Objects.store] at hd <;> simp only at hd
  · rcases eq_or_ne d a with rfl | hne
    · rw [Function.update_self] at hd
      exact (Function.update_self ..).trans (Option.some.inj hd)
    · rw [Function.update_of_ne hne] at hd
      exact (Function.update_of_ne hne ..).trans (hk.reads d w hd)
  · rcases eq_or_ne d a with rfl | hne
    · exact ⟨q, hq, hin⟩
    · rw [Function.update_of_ne hne] at hd
      exact hk.held d w hd

end

/-- Whatever is allocated and freed around it, a word that an owner has stored in an allocation it still
    holds reads as what was stored there last; and it lies in that one allocation only. -/
theorem stored_reads_back {p : P} {o : Objects} (hr : Serving pg m p h o) {a v : Nat}
    (ha : o.words a = some v) : h.mem a = v ∧ ∃! q, q ∈ o.live ∧ Within q a := by
  have hk : Keeps h o := by
    clear ha
    induction hr with
    | start => exact ⟨nofun, nofun⟩
    | kmalloc n hr _ hok ih =>
      obtain ⟨bs, hi⟩ := hr.run.inv
      exact ih.kmalloc hi hok
    | kfreeNull _ ih =>
      rw [kfree, if_pos rfl]
      exact ih
    | kfree hr hq ih =>
      obtain ⟨bs, hi⟩ := hr.run.inv
      exact ih.kfree hi hq
    | store a v _ hq _ hin ih => exact ih.store hq hin v
  obtain ⟨q, hq, hin⟩ := hk.held a v ha
  refine ⟨hk.reads a v ha, q, ⟨hq, hin⟩, fun r hr' => ?_⟩
  obtain ⟨bs, hi⟩ := hr.run.inv
  obtain ⟨b, hb, hbq, hlo, hhi⟩ := hi.block hq hin
  obtain ⟨c, hc, hcr, hlo', hhi'⟩ := hi.block hr'.1 hr'.2
  have hbc : b = c := by
    by_contra hne
    have := hi.holds.apart_extent hb.1 hc.1 hne
    simp only [Block.payload, headerSize] at *
    omega
  exact List.inj_on_of_nodup_map hi.exactly.nodup hr'.1 hq (by rw [← hcr, ← hbq, hbc])

/-- The block list after one request, and a word stored in what it was handed. -/
def storedOnce : HeapState Nat :=
  let h := (kmalloc countingPager (heapInit countingPager (fun _ => 0) 20) 100).2
  { h with mem := Function.update h.mem (kernelHeapStart + 40) 7 }

theorem stored_reads_back_counting :
    (kmalloc countingPager storedOnce 100).2.mem (kernelHeapStart + 40) = 7 := by
  have hb := (heapInit_spec countingPager (fun _ => 0) 20).2.resolve_left fun hz =>
    absurd hz.1 (by decide)
  have hp : (kmalloc countingPager (heapInit countingPager (fun _ => 0) 20) 100).1 =
      kernelHeapStart + headerSize := by decide
  have hone : Holds (kmalloc countingPager (heapInit countingPager (fun _ => 0) 20) 100).2
      [⟨kernelHeapStart, 112, false⟩, ⟨kernelHeapStart + 144, heapMinExpand - 176, true⟩] := by
    rw [kmalloc_found countingPager hb (heapInit_spec ..).1 (by decide) rfl]
    have htaken : BlockList _ _ _ ([] ++ [⟨kernelHeapStart, heapMinExpand - headerSize, false⟩]) :=
      BlockList.setFree (b := ⟨kernelHeapStart, heapMinExpand - headerSize, true⟩) hb false
    have hbig : 112 + 48 ≤ heapMinExpand - headerSize := by decide
    exact htaken.split (by decide) hbig (by decide)
  have hr := Serving.kmalloc 100 (Serving.start : Serving countingPager (fun _ => 0) 20 _ _) (by decide)
    (.inr (.inl ⟨_, hb, _, List.mem_singleton_self _, rfl, by decide⟩))
  have hs : Serving countingPager (fun _ => 0) 20 storedOnce _ :=
    Serving.store (q := (kernelHeapStart + headerSize, 100)) (kernelHeapStart + 40) 7 hr
      (by rw [hp]; simp [Objects.alloc]) (by decide) (by decide)
  have hfree : FreeFor storedOnce 100 :=
    ⟨_, hone.store (b := ⟨kernelHeapStart, 112, false⟩) ⟨by simp, rfl⟩ (by decide) (by decide) (by decide),
      _, List.mem_cons_of_mem _ (List.mem_singleton_self _), rfl, by decide⟩
  have hr2 := Serving.kmalloc 100 hs (by decide) (.inr (.inl hfree))
  refine (stored_reads_back hr2 ?_).1
  rw [Objects.alloc_words]
  simp [Objects.store]

end TypeOS.Heap
