import Mathlib.Data.List.Chain
import Mathlib.Data.Set.Basic
import Mathlib.Logic.Function.Basic

/-!
# Circular lists in a heap

A circular doubly linked list has a head, which is not an entry, and each of its nodes knows
the node after it and the node before it.  The list of the entries is read off by going
round: `head :: xs ++ [head]` is a chain of linked nodes, and no node of it occurs twice.

An operation changes the pointers of a few nodes only.  What it does to one circle is told
by the list before and the list after; other circles, which have no node in common with the
first, do not notice.

## Main definitions

* `Ring.Heap A` — the pointers of the nodes; `Heap.setNext`, `Heap.setPrev` — one store.
* `Ring.Circle h head xs` — the entries of a circular list.
* `Circle.insert`, `Circle.remove` — **a node is put in, or taken out, between two others**.
* `Ring.forEach` — a loop around a circle; `Circle.forEach_eq` — **it is the loop over the list**.
* `Ring.Family` — several circles in one heap.
-/

namespace Ring

variable {A : Type*}

/-- The pointers of the nodes.  Where there is no node, there are none. -/
structure Heap (A : Type*) where
  next : A → Option A
  prev : A → Option A

/-- There is a node. -/
structure Heap.Has (h : Heap A) (a : A) : Prop where
  next : (h.next a).isSome
  prev : (h.prev a).isSome

/-- `a->next = b`, a store to a node that must be there. -/
def Heap.setNext [DecidableEq A] (h : Heap A) (a b : A) : Option (Heap A) :=
  if (h.next a).isSome then some { h with next := Function.update h.next a (some b) } else none

/-- `a->prev = b`. -/
def Heap.setPrev [DecidableEq A] (h : Heap A) (a b : A) : Option (Heap A) :=
  if (h.prev a).isSome then some { h with prev := Function.update h.prev a (some b) } else none

/-- A new node, with something in its pointers. -/
def Heap.alloc [DecidableEq A] (h : Heap A) (a : A) (next prev : A) : Heap A :=
  ⟨Function.update h.next a (some next), Function.update h.prev a (some prev)⟩

/-- The node is gone. -/
def Heap.free [DecidableEq A] (h : Heap A) (a : A) : Heap A :=
  ⟨Function.update h.next a none, Function.update h.prev a none⟩

/-- `b` is the node after `a`, and both know it. -/
structure Linked (h : Heap A) (a b : A) : Prop where
  next : h.next a = some b
  prev : h.prev b = some a

/-- The two heaps agree on a node. -/
structure Same (h h' : Heap A) (a : A) : Prop where
  next : h'.next a = h.next a
  prev : h'.prev a = h.prev a

theorem Same.trans {h h' h'' : Heap A} {a : A} (h₁ : Same h h' a) (h₂ : Same h' h'' a) :
    Same h h'' a := ⟨h₂.next.trans h₁.next, h₂.prev.trans h₁.prev⟩

theorem Same.has {h h' : Heap A} {a : A} (hs : Same h h' a) (ha : h.Has a) : h'.Has a :=
  ⟨hs.next ▸ ha.next, hs.prev ▸ ha.prev⟩

section Stores

variable [DecidableEq A] {h : Heap A} {a b : A}

theorem setNext_eq (ha : (h.next a).isSome) (b : A) :
    h.setNext a b = some ⟨Function.update h.next a (some b), h.prev⟩ := if_pos ha

theorem setPrev_eq (ha : (h.prev a).isSome) (b : A) :
    h.setPrev a b = some ⟨h.next, Function.update h.prev a (some b)⟩ := if_pos ha

theorem has_alloc (h : Heap A) (a next prev : A) : (h.alloc a next prev).Has a :=
  ⟨by simp [Heap.alloc], by simp [Heap.alloc]⟩

theorem same_alloc (hab : b ≠ a) (next prev : A) : Same h (h.alloc a next prev) b :=
  ⟨Function.update_of_ne hab _ _, Function.update_of_ne hab _ _⟩

theorem same_free (hab : b ≠ a) : Same h (h.free a) b :=
  ⟨Function.update_of_ne hab _ _, Function.update_of_ne hab _ _⟩

end Stores

/-- The entries of the circular list at `head`. -/
structure Circle (h : Heap A) (head : A) (xs : List A) : Prop where
  nodup : (head :: xs).Nodup
  chain : (head :: (xs ++ [head])).IsChain (Linked h)

/-! ## Going round -/

/-- The last entry of a list, or the head. -/
theorem exists_concat (xs : List A) (head : A) : ∃ us, head :: xs = us ++ [xs.getLastD head] := by
  induction xs generalizing head with
  | nil => exact ⟨[], rfl⟩
  | cons x xs ih =>
      obtain ⟨us, hus⟩ := ih x
      refine ⟨head :: us, ?_⟩
      rw [List.getLastD_cons, List.cons_append, ← hus]

/-- The first entry of a list, or the head. -/
theorem exists_cons (ys : List A) (head : A) : ∃ vs, ys ++ [head] = ys.headD head :: vs := by
  cases ys with
  | nil => exact ⟨[], rfl⟩
  | cons y ys => exact ⟨ys ++ [head], rfl⟩

theorem getLastD_mem (xs : List A) (head : A) : xs.getLastD head ∈ head :: xs := by
  obtain ⟨us, hus⟩ := exists_concat xs head
  rw [hus]
  exact List.mem_append_right us (List.mem_singleton_self _)

theorem headD_mem (ys : List A) (head : A) : ys.headD head ∈ head :: ys := by
  cases ys with
  | nil => exact List.mem_cons_self
  | cons y ys => exact List.mem_cons_of_mem _ List.mem_cons_self

section Circle

variable {h h' : Heap A} {head e : A} {xs ys : List A}

/-- A chain looks at the pointers to the next node of all but its last node, and at the
pointers to the previous node of all but its first. -/
theorem isChain_congr {l : List A} (hl : l.IsChain (Linked h))
    (hnext : ∀ a ∈ l.dropLast, h'.next a = h.next a) (hprev : ∀ b ∈ l.tail, h'.prev b = h.prev b) :
    l.IsChain (Linked h') := by
  induction l with
  | nil => exact .nil
  | cons a l ih =>
      cases l with
      | nil => exact .singleton a
      | cons b l =>
          obtain ⟨hab, hl⟩ := List.isChain_cons_cons.mp hl
          refine List.isChain_cons_cons.mpr ⟨⟨?_, ?_⟩, ih hl ?_ ?_⟩
          · rw [hnext a List.mem_cons_self, hab.next]
          · rw [hprev b List.mem_cons_self, hab.prev]
          · exact fun c hc => hnext c (List.mem_cons_of_mem a hc)
          · exact fun c hc => hprev c (List.mem_cons_of_mem b hc)

/-- **Frame rule**: a circle depends on its own nodes only. -/
theorem Circle.congr (hc : Circle h head xs) (hsame : ∀ a ∈ head :: xs, Same h h' a) :
    Circle h' head xs := by
  refine ⟨hc.nodup, isChain_congr hc.chain (fun a ha => (hsame a ?_).next)
    fun b hb => (hsame b ?_).prev⟩
  · rwa [← List.cons_append, List.dropLast_concat] at ha
  · rw [List.tail_cons, List.mem_append, List.mem_singleton] at hb
    rcases hb with hb | rfl
    · exact List.mem_cons_of_mem _ hb
    · exact List.mem_cons_self

/-- Where two parts of a circle meet. -/
theorem isChain_split {R : A → A → Prop} :
    (head :: (xs ++ ys ++ [head])).IsChain R ↔
      (head :: xs).IsChain R ∧ R (xs.getLastD head) (ys.headD head) ∧ (ys ++ [head]).IsChain R := by
  obtain ⟨us, hus⟩ := exists_concat xs head
  obtain ⟨vs, hvs⟩ := exists_cons ys head
  rw [List.append_assoc, hvs, ← List.cons_append, hus, List.append_assoc, List.singleton_append]
  exact List.isChain_append_cons_cons

theorem isChain_cons_concat {R : A → A → Prop} :
    (e :: (ys ++ [head])).IsChain R ↔ R e (ys.headD head) ∧ (ys ++ [head]).IsChain R := by
  obtain ⟨vs, hvs⟩ := exists_cons ys head
  rw [hvs]
  exact List.isChain_cons_cons

/-- The first entry, or the head. -/
theorem Circle.next_head (hc : Circle h head xs) : h.next head = some (xs.headD head) :=
  (isChain_cons_concat.mp hc.chain).1.next

/-- The last entry, or the head. -/
theorem Circle.prev_head (hc : Circle h head xs) : h.prev head = some (xs.getLastD head) := by
  have hchain : (head :: (xs ++ [] ++ [head])).IsChain (Linked h) := by
    rw [List.append_nil]
    exact hc.chain
  exact (isChain_split.mp hchain).2.1.prev

theorem Circle.prev_eq (hc : Circle h head (xs ++ e :: ys)) :
    h.prev e = some (xs.getLastD head) :=
  (isChain_split.mp hc.chain).2.1.prev

theorem Circle.next_eq (hc : Circle h head (xs ++ e :: ys)) : h.next e = some (ys.headD head) :=
  (isChain_cons_concat.mp (isChain_split.mp hc.chain).2.2).1.next

/-- Every node of a circle is there. -/
theorem Circle.has (hc : Circle h head xs) {a : A} (ha : a ∈ head :: xs) : h.Has a := by
  rcases List.mem_cons.mp ha with rfl | ha
  · exact ⟨by rw [hc.next_head]; rfl, by rw [hc.prev_head]; rfl⟩
  · obtain ⟨us, vs, rfl⟩ := List.append_of_mem ha
    exact ⟨by rw [hc.next_eq]; rfl, by rw [hc.prev_eq]; rfl⟩

/-! ## One node more or less -/

/-- The part before a place does not look at what is stored there. -/
theorem isChain_left (hnodup : (head :: (xs ++ ys)).Nodup) (hl : (head :: xs).IsChain (Linked h))
    (hnext : ∀ a ∈ head :: (xs ++ ys), a ≠ xs.getLastD head → h'.next a = h.next a)
    (hprev : ∀ a ∈ head :: (xs ++ ys), a ≠ ys.headD head → h'.prev a = h.prev a) :
    (head :: xs).IsChain (Linked h') := by
  have hnodup' := hnodup
  rw [← List.cons_append] at hnodup
  obtain ⟨hnd, -, -⟩ := List.nodup_append.mp hnodup
  refine isChain_congr hl (fun a ha => ?_) fun b hb => ?_
  · refine hnext a (List.mem_append_left ys (List.dropLast_subset _ ha)) fun heq => ?_
    obtain ⟨us, hus⟩ := exists_concat xs head
    rw [hus, List.dropLast_concat] at ha
    rw [hus] at hnd
    exact (List.nodup_append.mp hnd).2.2 a ha _ (List.mem_singleton_self _) heq
  · have hb' : b ∈ xs := hb
    refine hprev b (List.mem_cons_of_mem _ (List.mem_append_left _ hb')) fun heq => ?_
    obtain ⟨hhead, hnd'⟩ := List.nodup_cons.mp hnodup'
    rcases List.mem_cons.mp (heq ▸ headD_mem ys head) with rfl | hmem
    · exact hhead (List.mem_append_left _ hb')
    · exact (List.nodup_append.mp hnd').2.2 b hb' b hmem rfl

/-- Nor does the part after it. -/
theorem isChain_right (hnodup : (head :: (xs ++ ys)).Nodup)
    (hl : (ys ++ [head]).IsChain (Linked h))
    (hnext : ∀ a ∈ head :: (xs ++ ys), a ≠ xs.getLastD head → h'.next a = h.next a)
    (hprev : ∀ a ∈ head :: (xs ++ ys), a ≠ ys.headD head → h'.prev a = h.prev a) :
    (ys ++ [head]).IsChain (Linked h') := by
  obtain ⟨hhead, hnd⟩ := List.nodup_cons.mp hnodup
  have hmem : ∀ b ∈ ys ++ [head], b ∈ head :: (xs ++ ys) := by
    intro b hb
    rcases List.mem_append.mp hb with hb | hb
    · exact List.mem_cons_of_mem _ (List.mem_append_right _ hb)
    · exact List.mem_cons.mpr (.inl (List.mem_singleton.mp hb))
  refine isChain_congr hl (fun a ha => ?_) fun b hb => ?_
  · rw [List.dropLast_concat] at ha
    refine hnext a (hmem a (List.mem_append_left _ ha)) fun heq => ?_
    rw [← List.cons_append] at hnodup
    exact (List.nodup_append.mp hnodup).2.2 _ (getLastD_mem xs head) a ha heq.symm
  · refine hprev b (hmem b (List.mem_of_mem_tail hb)) fun heq => ?_
    have hnd' : (ys ++ [head]).Nodup := by
      rw [(List.perm_append_singleton head ys).nodup_iff, List.nodup_cons]
      exact ⟨fun hmem => hhead (List.mem_append_right _ hmem), (List.nodup_append.mp hnd).2.1⟩
    obtain ⟨vs, hvs⟩ := exists_cons ys head
    rw [hvs] at hb hnd'
    exact (List.nodup_cons.mp hnd').1 (heq ▸ hb)

theorem getLastD_mem_circle (xs ys : List A) (head : A) :
    xs.getLastD head ∈ head :: (xs ++ ys) := List.mem_append_left ys (getLastD_mem xs head)

theorem headD_mem_circle (xs ys : List A) (head : A) : ys.headD head ∈ head :: (xs ++ ys) := by
  rcases List.mem_cons.mp (headD_mem ys head) with heq | hmem
  · exact List.mem_cons.mpr (.inl heq)
  · exact List.mem_cons_of_mem _ (List.mem_append_right _ hmem)

variable [DecidableEq A] {new : A}

/-- **A node is put in**, where two parts of the circle meet. -/
theorem Circle.insert (hc : Circle h head (xs ++ ys)) (hnew : new ∉ head :: (xs ++ ys))
    (hnext : h'.next = Function.update (Function.update h.next new (some (ys.headD head)))
      (xs.getLastD head) (some new))
    (hprev : h'.prev = Function.update (Function.update h.prev (ys.headD head) (some new))
      new (some (xs.getLastD head))) :
    Circle h' head (xs ++ new :: ys) := by
  have hne : ∀ a ∈ head :: (xs ++ ys), a ≠ new := fun a ha heq => hnew (heq ▸ ha)
  have hlast := hne _ (getLastD_mem_circle xs ys head)
  have hfirst := hne _ (headD_mem_circle xs ys head)
  have hnext' : ∀ a ∈ head :: (xs ++ ys), a ≠ xs.getLastD head → h'.next a = h.next a := by
    intro a ha hne'
    rw [hnext, Function.update_of_ne hne', Function.update_of_ne (hne a ha)]
  have hprev' : ∀ a ∈ head :: (xs ++ ys), a ≠ ys.headD head → h'.prev a = h.prev a := by
    intro a ha hne'
    rw [hprev, Function.update_of_ne (hne a ha), Function.update_of_ne hne']
  obtain ⟨hleft, -, hright⟩ := isChain_split.mp hc.chain
  refine ⟨?_, isChain_split.mpr ⟨isChain_left hc.nodup hleft hnext' hprev', ⟨?_, ?_⟩,
    isChain_cons_concat.mpr ⟨⟨?_, ?_⟩, isChain_right hc.nodup hright hnext' hprev'⟩⟩⟩
  · rw [← List.cons_append, List.perm_middle.nodup_iff, List.nodup_cons]
    exact ⟨hnew, hc.nodup⟩
  · rw [hnext, Function.update_self]
    rfl
  · rw [hprev]
    exact Function.update_self _ _ _
  · rw [hnext, Function.update_of_ne hlast.symm, Function.update_self]
  · rw [hprev, Function.update_of_ne hfirst, Function.update_self]

/-- **A node is taken out.** -/
theorem Circle.remove (hc : Circle h head (xs ++ e :: ys))
    (hnext : ∀ a ≠ e, h'.next a = Function.update h.next (xs.getLastD head)
      (some (ys.headD head)) a)
    (hprev : ∀ a ≠ e, h'.prev a = Function.update h.prev (ys.headD head)
      (some (xs.getLastD head)) a) :
    Circle h' head (xs ++ ys) := by
  have hnodup := hc.nodup
  rw [← List.cons_append, List.perm_middle.nodup_iff, List.nodup_cons, List.cons_append] at hnodup
  obtain ⟨he, hnd⟩ := hnodup
  have hne : ∀ a ∈ head :: (xs ++ ys), a ≠ e := fun a ha heq => he (heq ▸ ha)
  have hnext' : ∀ a ∈ head :: (xs ++ ys), a ≠ xs.getLastD head → h'.next a = h.next a := by
    intro a ha hne'
    rw [hnext a (hne a ha), Function.update_of_ne hne']
  have hprev' : ∀ a ∈ head :: (xs ++ ys), a ≠ ys.headD head → h'.prev a = h.prev a := by
    intro a ha hne'
    rw [hprev a (hne a ha), Function.update_of_ne hne']
  obtain ⟨hleft, -, hright⟩ := isChain_split.mp hc.chain
  refine ⟨hnd, isChain_split.mpr ⟨isChain_left hnd hleft hnext' hprev', ⟨?_, ?_⟩,
    isChain_right hnd (isChain_cons_concat.mp hright).2 hnext' hprev'⟩⟩
  · rw [hnext _ (hne _ (getLastD_mem_circle xs ys head)), Function.update_self]
  · rw [hprev _ (hne _ (headD_mem_circle xs ys head)), Function.update_self]

end Circle

/-! ## Loops around a circle -/

/-- A loop over a list, which the body may leave. -/
def forList {σ : Type*} (body : σ → A → Option (σ × Bool)) : List A → σ → Option σ
  | [], s => some s
  | a :: as, s => do
      let (s, stop) ← body s a
      if stop then some s else forList body as s

/-- `for (pos = first; pos != head; pos = pos->next) body`, which the body may leave.  It faults
when the fuel runs out. -/
def forEach [DecidableEq A] {σ : Type*} (h : Heap A) (head : A)
    (body : σ → A → Option (σ × Bool)) : ℕ → A → σ → Option σ
  | 0, _, _ => none
  | fuel + 1, pos, s =>
      if pos = head then some s
      else do
        let (s, stop) ← body s pos
        if stop then some s
        else (h.next pos).bind fun next => forEach h head body fuel next s

/-- A loop whose body looks only at what its nodes stand for. -/
theorem forList_bind {B σ : Type*} {get : A → Option B} {body : σ → B → Option (σ × Bool)}
    {as : List A} {bs : List B} (h : as.map get = bs.map some) (s : σ) :
    forList (fun s a => (get a).bind (body s)) as s = forList body bs s := by
  induction as generalizing bs s with
  | nil =>
      cases bs with
      | nil => rfl
      | cons b bs => cases h
  | cons a as ih =>
      cases bs with
      | nil => cases h
      | cons b bs =>
          obtain ⟨ha, has⟩ := List.cons.inj h
          rw [forList, forList, ha, Option.bind_some]
          cases body s b with
          | none => rfl
          | some r =>
              simp only [Option.bind_eq_bind, Option.bind_some]
              split_ifs
              · rfl
              · exact ih has r.1

section Loops

variable [DecidableEq A] {h : Heap A} {head : A} {xs : List A} {σ : Type*}

theorem Circle.forEach_from (body : σ → A → Option (σ × Bool)) {ys : List A}
    (hc : Circle h head (xs ++ ys)) {fuel : ℕ} (hfuel : ys.length < fuel) (s : σ) :
    forEach h head body fuel (ys.headD head) s = forList body ys s := by
  induction ys generalizing xs fuel s with
  | nil =>
      obtain ⟨k, rfl⟩ : ∃ k, fuel = k + 1 := ⟨fuel - 1, by omega⟩
      exact if_pos rfl
  | cons y ys ih =>
      obtain ⟨k, rfl⟩ : ∃ k, fuel = k + 1 := ⟨fuel - 1, by omega⟩
      have hne : y ≠ head := by
        rintro rfl
        exact (List.nodup_cons.mp hc.nodup).1 (List.mem_append_right _ List.mem_cons_self)
      have hc' : Circle h head ((xs ++ [y]) ++ ys) := by
        rwa [List.append_assoc, List.singleton_append]
      have hk : ys.length < k := by
        rw [List.length_cons] at hfuel
        omega
      have hrest := ih hc' hk
      rw [forEach, List.headD_cons, if_neg hne, forList, hc.next_eq]
      simp only [Option.bind_eq_bind, Option.bind_some, hrest]

/-- **A loop around a circle is the loop over its entries.** -/
theorem Circle.forEach_eq (hc : Circle h head xs) (body : σ → A → Option (σ × Bool)) {fuel : ℕ}
    (hfuel : xs.length < fuel) (s : σ) :
    (h.next head).bind (fun first => forEach h head body fuel first s) = forList body xs s := by
  have hc' : Circle h head ([] ++ xs) := hc
  rw [hc.next_head]
  exact hc'.forEach_from body hfuel s

end Loops

/-! ## Several circles -/

/-- Circles at several heads, which have no node in common. -/
structure Family (h : Heap A) (heads : Set A) (cells : A → List A) : Prop where
  circle : ∀ d ∈ heads, Circle h d (cells d)
  apart : ∀ d ∈ heads, ∀ e ∈ heads, ∀ a, a ∈ d :: cells d → a ∈ e :: cells e → d = e

/-- The nodes of the circles. -/
def uses (heads : Set A) (cells : A → List A) : Set A := {a | ∃ d ∈ heads, a ∈ d :: cells d}

section Family

variable {h h' : Heap A} {heads : Set A} {cells : A → List A}

/-- **Frame rule**: what is no node of any circle may change. -/
theorem Family.congr (hf : Family h heads cells) (hsame : ∀ a ∈ uses heads cells, Same h h' a) :
    Family h' heads cells where
  circle d hd := (hf.circle d hd).congr fun a ha => hsame a ⟨d, hd, ha⟩
  apart := hf.apart

/-- The lists of other nodes do not matter. -/
theorem Family.congr_cells (hf : Family h heads cells) {cells' : A → List A}
    (heq : ∀ d ∈ heads, cells' d = cells d) : Family h heads cells' where
  circle d hd := by
    rw [heq d hd]
    exact hf.circle d hd
  apart d hd e he a ha ha' := by
    rw [heq d hd] at ha
    rw [heq e he] at ha'
    exact hf.apart d hd e he a ha ha'

/-- The circles at the other heads do not notice. -/
theorem Family.others (hf : Family h heads cells) {d e a : A} (hd : d ∈ heads) (he : e ∈ heads)
    (hne : e ≠ d) (ha : a ∈ e :: cells e) : a ∉ d :: cells d :=
  fun hmem => hne (hf.apart e he d hd a ha hmem)

/-- **One circle changes**: its new entries were its own, or of no circle. -/
theorem Family.replace [DecidableEq A] (hf : Family h heads cells) {d : A} (hd : d ∈ heads)
    {xs : List A} (hc : Circle h' d xs)
    (hsame : ∀ a ∈ uses heads cells, a ∉ d :: cells d → Same h h' a)
    (hxs : ∀ a ∈ xs, a ∈ cells d ∨ a ∉ uses heads cells) :
    Family h' heads (Function.update cells d xs) := by
  have hothers : ∀ e ∈ heads, e ≠ d → ∀ a ∈ e :: cells e, a ∉ d :: xs := by
    intro e he hne a ha hmem
    have hnot := hf.others hd he hne ha
    rcases List.mem_cons.mp hmem with rfl | hmem
    · exact hnot List.mem_cons_self
    · rcases hxs a hmem with hold | hnew
      · exact hnot (List.mem_cons_of_mem _ hold)
      · exact hnew ⟨e, he, ha⟩
  refine ⟨fun e he => ?_, fun e he f hf' a ha ha' => ?_⟩
  · by_cases hed : e = d
    · rw [hed, Function.update_self]
      exact hc
    · rw [Function.update_of_ne hed]
      exact (hf.circle e he).congr fun a ha => hsame a ⟨e, he, ha⟩ (hf.others hd he hed ha)
  · by_cases hed : e = d <;> by_cases hfd : f = d
    · rw [hed, hfd]
    · rw [hed, Function.update_self] at ha
      rw [Function.update_of_ne hfd] at ha'
      exact absurd ha (hothers f hf' hfd a ha')
    · rw [Function.update_of_ne hed] at ha
      rw [hfd, Function.update_self] at ha'
      exact absurd ha' (hothers e he hed a ha)
    · rw [Function.update_of_ne hed] at ha
      rw [Function.update_of_ne hfd] at ha'
      exact hf.apart e he f hf' a ha ha'

/-- **One circle more.** -/
theorem Family.insert (hf : Family h heads cells) {d : A} (hd : d ∉ uses heads cells)
    (hc : Circle h' d (cells d)) (hcells : ∀ a ∈ cells d, a ∉ uses heads cells)
    (hsame : ∀ a ∈ uses heads cells, Same h h' a) : Family h' (insert d heads) cells := by
  have hdisj : ∀ a ∈ d :: cells d, ∀ e ∈ heads, a ∉ e :: cells e := by
    intro a ha e he hmem
    rcases List.mem_cons.mp ha with rfl | ha
    · exact hd ⟨e, he, hmem⟩
    · exact hcells a ha ⟨e, he, hmem⟩
  refine ⟨fun e he => ?_, fun e he f hf' a ha ha' => ?_⟩
  · rcases he with rfl | he
    · exact hc
    · exact (hf.circle e he).congr fun a ha => hsame a ⟨e, he, ha⟩
  · rcases he with rfl | he <;> rcases hf' with rfl | hf'
    · rfl
    · exact absurd ha' (hdisj a ha f hf')
    · exact absurd ha (hdisj a ha' e he)
    · exact hf.apart e he f hf' a ha ha'

/-- A node that is taken off its circle is on none. -/
theorem Family.notMem_uses [DecidableEq A] (hf : Family h heads cells) {d e : A} (hd : d ∈ heads)
    {xs ys : List A} (hcells : cells d = xs ++ e :: ys) :
    e ∉ uses heads (Function.update cells d (xs ++ ys)) := by
  have hnodup := (hf.circle d hd).nodup
  rw [hcells, ← List.cons_append, List.perm_middle.nodup_iff, List.nodup_cons] at hnodup
  have he : e ∈ d :: cells d := by
    rw [hcells]
    exact List.mem_cons_of_mem _ (List.mem_append_right _ List.mem_cons_self)
  rintro ⟨f, hf', hmem⟩
  by_cases hfd : f = d
  · rw [hfd, Function.update_self] at hmem
    exact hnodup.1 hmem
  · rw [Function.update_of_ne hfd] at hmem
    exact hf.others hd hf' hfd hmem he

end Family

end Ring
