import TreeBitmap.Lib.Ring

/-!
# Lists of structures (`lib/list.h`)

`struct list_head` is a member of the structures that are on a list, and the head of a list is
one more of them.  The functions move pointers; which lists they make is told by the circles of
the heap.

## Main definitions

* `initListHead`, `listAdd`, `listAddTail`, `listDel`, `listEmpty` — the functions of the header
  that the library calls.
* `initListHead_spec`, `listAdd_spec`, `listAddTail_spec`, `listDel_spec` — **what they do to the
  lists of a heap**.
-/

namespace TreeBitmap

open Ring

variable {A : Type} [DecidableEq A]

/-- `INIT_LIST_HEAD`. -/
def initListHead (h : Heap A) (list : A) : Option (Heap A) := do
  let h ← h.setNext list list
  h.setPrev list list

/-- `__list_add`. -/
def listAddBetween (h : Heap A) (new prev next : A) : Option (Heap A) := do
  let h ← h.setPrev next new
  let h ← h.setNext new next
  let h ← h.setPrev new prev
  h.setNext prev new

/-- `list_add`. -/
def listAdd (h : Heap A) (new head : A) : Option (Heap A) := do
  let next ← h.next head
  listAddBetween h new head next

/-- `list_add_tail`. -/
def listAddTail (h : Heap A) (new head : A) : Option (Heap A) := do
  let prev ← h.prev head
  listAddBetween h new prev head

/-- `__list_del`. -/
def listDelBetween (h : Heap A) (prev next : A) : Option (Heap A) := do
  let h ← h.setPrev next prev
  h.setNext prev next

/-- `list_del`, with `LIST_POISON1` and `LIST_POISON2`. -/
def listDel (poison1 poison2 : A) (h : Heap A) (entry : A) : Option (Heap A) := do
  let prev ← h.prev entry
  let next ← h.next entry
  let h ← listDelBetween h prev next
  let h ← h.setNext entry poison1
  h.setPrev entry poison2

/-- `list_empty`. -/
def listEmpty (h : Heap A) (head : A) : Option Bool := do
  let next ← h.next head
  some (decide (next = head))

section Specs

variable {h : Heap A} {head new entry : A} {heads : Set A} {cells : A → List A} {xs ys : List A}

/-- A new head has an empty list. -/
theorem initListHead_spec (hhas : h.Has head) :
    ∃ h', initListHead h head = some h' ∧ Circle h' head [] ∧ ∀ a ≠ head, Same h h' a := by
  refine ⟨⟨Function.update h.next head (some head), Function.update h.prev head (some head)⟩, ?_,
    ⟨List.nodup_cons.mpr ⟨List.not_mem_nil, List.nodup_nil⟩, ?_⟩, fun a ha => ?_⟩
  · refine Option.bind_eq_some_iff.mpr ⟨_, setNext_eq hhas.next head, ?_⟩
    exact if_pos hhas.prev
  · refine List.isChain_cons_cons.mpr ⟨⟨Function.update_self _ _ _, Function.update_self _ _ _⟩, ?_⟩
    exact .singleton head
  · exact ⟨Function.update_of_ne ha _ _, Function.update_of_ne ha _ _⟩

/-- **`INIT_LIST_HEAD` makes one list more**, an empty one. -/
theorem initListHead_family (hf : Family h heads cells) (hd : head ∉ uses heads cells)
    (hhas : h.Has head) (hcells : cells head = []) :
    ∃ h', initListHead h head = some h' ∧ Family h' (insert head heads) cells ∧
      ∀ a ≠ head, Same h h' a := by
  obtain ⟨h', hinit, hc, hsame⟩ := initListHead_spec hhas
  refine ⟨h', hinit, hf.insert hd (hcells.symm ▸ hc) (by simp [hcells]) fun a ha => ?_, hsame⟩
  exact hsame a fun heq => hd (heq ▸ ha)

/-- A node that has just been allocated is on no list, also when it is a list by itself. -/
theorem initListHead_alloc (hf : Family h heads cells) (hnew : new ∉ uses heads cells)
    (next prev : A) :
    ∃ h', initListHead (h.alloc new next prev) new = some h' ∧ Family h' heads cells ∧
      h'.Has new ∧ ∀ a ≠ new, Same h h' a := by
  obtain ⟨h', hinit, hc, hsame⟩ := initListHead_spec (has_alloc h new next prev)
  have hframe : ∀ a ≠ new, Same h h' a := fun a hne =>
    (same_alloc hne next prev).trans (hsame a hne)
  refine ⟨h', hinit, hf.congr fun a ha => hframe a fun heq => hnew (heq ▸ ha), ?_, hframe⟩
  exact hc.has List.mem_cons_self

/-- A node goes between two that follow each other. -/
theorem listAddBetween_spec (hc : Circle h head (xs ++ ys)) (hnew : new ∉ head :: (xs ++ ys))
    (hhas : h.Has new) :
    ∃ h', listAddBetween h new (xs.getLastD head) (ys.headD head) = some h' ∧
      Circle h' head (xs ++ new :: ys) ∧
      ∀ a ∉ head :: (xs ++ ys), a ≠ new → Same h h' a := by
  have hlast := getLastD_mem_circle xs ys head
  have hfirst := headD_mem_circle xs ys head
  have hne : xs.getLastD head ≠ new := fun heq => hnew (heq ▸ hlast)
  have hne' : ys.headD head ≠ new := fun heq => hnew (heq ▸ hfirst)
  refine ⟨⟨Function.update (Function.update h.next new (some (ys.headD head)))
      (xs.getLastD head) (some new),
    Function.update (Function.update h.prev (ys.headD head) (some new))
      new (some (xs.getLastD head))⟩, ?_, hc.insert hnew rfl rfl, fun a ha hane => ⟨?_, ?_⟩⟩
  · refine Option.bind_eq_some_iff.mpr ⟨_, setPrev_eq (hc.has hfirst).prev new, ?_⟩
    refine Option.bind_eq_some_iff.mpr ⟨_, if_pos hhas.next, ?_⟩
    refine Option.bind_eq_some_iff.mpr ⟨_, if_pos ?_, if_pos ?_⟩
    · change (Function.update h.prev (ys.headD head) (some new) new).isSome
      rw [Function.update_of_ne hne'.symm]
      exact hhas.prev
    · change (Function.update h.next new (some (ys.headD head)) (xs.getLastD head)).isSome
      rw [Function.update_of_ne hne]
      exact (hc.has hlast).next
  · have hal : a ≠ xs.getLastD head := fun heq => ha (heq ▸ hlast)
    exact (Function.update_of_ne hal _ _).trans (Function.update_of_ne hane _ _)
  · have haf : a ≠ ys.headD head := fun heq => ha (heq ▸ hfirst)
    exact (Function.update_of_ne hane _ _).trans (Function.update_of_ne haf _ _)

theorem listAddBetween_family (hf : Family h heads cells) (hd : head ∈ heads)
    (hcells : cells head = xs ++ ys) (hnew : new ∉ uses heads cells) (hhas : h.Has new) :
    ∃ h', listAddBetween h new (xs.getLastD head) (ys.headD head) = some h' ∧
      Family h' heads (Function.update cells head (xs ++ new :: ys)) := by
  have hcircle := hf.circle head hd
  have hnot : new ∉ head :: cells head := fun hmem => hnew ⟨head, hd, hmem⟩
  rw [hcells] at hcircle hnot
  obtain ⟨h', hadd, hc, hsame⟩ := listAddBetween_spec hcircle hnot hhas
  refine ⟨h', hadd, hf.replace hd hc (fun a ha hna => ?_) fun a ha => ?_⟩
  · rw [hcells] at hna
    exact hsame a hna fun heq => hnew (heq ▸ ha)
  · rw [List.mem_append, List.mem_cons] at ha
    rw [hcells, List.mem_append]
    rcases ha with ha | rfl | ha
    · exact .inl (.inl ha)
    · exact .inr hnew
    · exact .inl (.inr ha)

/-- **`list_add` puts a node in front of a list**, and leaves the others alone. -/
theorem listAdd_spec (hf : Family h heads cells) (hd : head ∈ heads)
    (hnew : new ∉ uses heads cells) (hhas : h.Has new) :
    ∃ h', listAdd h new head = some h' ∧
      Family h' heads (Function.update cells head (new :: cells head)) := by
  have hcells : cells head = [] ++ cells head := rfl
  obtain ⟨h', hadd, hfam⟩ := listAddBetween_family hf hd hcells hnew hhas
  refine ⟨h', ?_, hfam⟩
  rw [listAdd, (hf.circle head hd).next_head]
  exact hadd

/-- `list_add` stores to nodes of the list and to the new one only. -/
theorem listAdd_same (hc : Circle h head xs) (hnew : new ∉ head :: xs) (hhas : h.Has new)
    {h' : Heap A} (hadd : listAdd h new head = some h') {a : A} (ha : a ∉ head :: xs)
    (hne : a ≠ new) : Same h h' a := by
  have hc' : Circle h head ([] ++ xs) := hc
  obtain ⟨h₁, hadd₁, -, hsame⟩ := listAddBetween_spec hc' hnew hhas
  rw [listAdd, hc.next_head] at hadd
  cases hadd.symm.trans hadd₁
  exact hsame a ha hne

/-- **`list_add_tail` puts a node at the end of a list**, and leaves the others alone. -/
theorem listAddTail_spec (hf : Family h heads cells) (hd : head ∈ heads)
    (hnew : new ∉ uses heads cells) (hhas : h.Has new) :
    ∃ h', listAddTail h new head = some h' ∧
      Family h' heads (Function.update cells head (cells head ++ [new])) := by
  have hcells : cells head = cells head ++ [] := (List.append_nil _).symm
  obtain ⟨h', hadd, hfam⟩ := listAddBetween_family hf hd hcells hnew hhas
  refine ⟨h', ?_, hfam⟩
  rw [listAddTail, (hf.circle head hd).prev_head]
  exact hadd

theorem listDelBetween_family (hf : Family h heads cells) (hd : head ∈ heads)
    (hcells : cells head = xs ++ entry :: ys) :
    ∃ h', listDelBetween h (xs.getLastD head) (ys.headD head) = some h' ∧
      Family h' heads (Function.update cells head (xs ++ ys)) ∧ Same h h' entry := by
  have hc := hf.circle head hd
  have hcells' : ∀ a, a ∈ head :: cells head ↔ a = entry ∨ a ∈ head :: (xs ++ ys) := by
    intro a
    rw [hcells, ← List.cons_append, List.perm_middle.mem_iff, List.mem_cons, List.cons_append]
  rw [hcells] at hc
  have hnodup := hc.nodup
  rw [← List.cons_append, List.perm_middle.nodup_iff, List.nodup_cons, List.cons_append] at hnodup
  obtain ⟨hentry, -⟩ := hnodup
  have hlast := getLastD_mem_circle xs ys head
  have hfirst := headD_mem_circle xs ys head
  have hne : entry ≠ xs.getLastD head := fun heq => hentry (heq ▸ hlast)
  have hne' : entry ≠ ys.headD head := fun heq => hentry (heq ▸ hfirst)
  have hhas : ∀ a ∈ head :: (xs ++ ys), h.Has a := fun a ha =>
    (hf.circle head hd).has ((hcells' a).mpr (.inr ha))
  refine ⟨⟨Function.update h.next (xs.getLastD head) (some (ys.headD head)),
    Function.update h.prev (ys.headD head) (some (xs.getLastD head))⟩, ?_,
    hf.replace hd (hc.remove (fun _ _ => rfl) fun _ _ => rfl) (fun a _ hna => ?_)
      fun a ha => ?_, ?_⟩
  · exact Option.bind_eq_some_iff.mpr
      ⟨_, setPrev_eq (hhas _ hfirst).prev _, if_pos (hhas _ hlast).next⟩
  · rw [hcells', not_or] at hna
    have hal : a ≠ xs.getLastD head := fun heq => hna.2 (heq ▸ hlast)
    have haf : a ≠ ys.headD head := fun heq => hna.2 (heq ▸ hfirst)
    exact ⟨Function.update_of_ne hal _ _, Function.update_of_ne haf _ _⟩
  · rw [hcells, List.perm_middle.mem_iff]
    exact .inl (List.mem_cons_of_mem _ ha)
  · exact ⟨Function.update_of_ne hne _ _, Function.update_of_ne hne' _ _⟩

/-- **`list_del` takes a node off its list**, and leaves the others alone.  The node is there
still, but on no list. -/
theorem listDel_spec (poison1 poison2 : A) (hf : Family h heads cells) (hd : head ∈ heads)
    (hcells : cells head = xs ++ entry :: ys) :
    ∃ h', listDel poison1 poison2 h entry = some h' ∧
      Family h' heads (Function.update cells head (xs ++ ys)) := by
  obtain ⟨h₁, hdel, hfam, hsame⟩ := listDelBetween_family hf hd hcells
  have hnot := hf.notMem_uses hd hcells
  have hc := hf.circle head hd
  rw [hcells] at hc
  have hhas : h₁.Has entry := hsame.has (hc.has
    (List.mem_cons_of_mem _ (List.mem_append_right _ List.mem_cons_self)))
  refine ⟨⟨Function.update h₁.next entry (some poison1),
    Function.update h₁.prev entry (some poison2)⟩,
    ?_, hfam.congr fun a ha => ?_⟩
  · refine Option.bind_eq_some_iff.mpr ⟨_, hc.prev_eq, ?_⟩
    refine Option.bind_eq_some_iff.mpr ⟨_, hc.next_eq, ?_⟩
    refine Option.bind_eq_some_iff.mpr ⟨_, hdel, ?_⟩
    exact Option.bind_eq_some_iff.mpr ⟨_, setNext_eq hhas.next poison1, if_pos hhas.prev⟩
  · have hane : a ≠ entry := fun heq => hnot (heq ▸ ha)
    exact ⟨Function.update_of_ne hane _ _, Function.update_of_ne hane _ _⟩

/-- `list_empty` tells whether there is an entry. -/
theorem listEmpty_spec (hc : Circle h head xs) : listEmpty h head = some xs.isEmpty := by
  rw [listEmpty, hc.next_head]
  cases xs with
  | nil => simp
  | cons x xs =>
      have hne : x ≠ head := by
        rintro rfl
        exact (List.nodup_cons.mp hc.nodup).1 List.mem_cons_self
      simp [hne]

end Specs

end TreeBitmap
