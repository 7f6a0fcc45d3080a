import TreeBitmap.ListHead
import TreeBitmap.Blocks

/-!
# The lists of the page-colour allocator

The areas of a share, and its freed blocks of one size, are on lists of `lib/list.h`: each area
and each freed block has a structure of its own, which `malloc` gives and which carries the
pointers.  `McPriv` has the lists themselves.  Here are the pointers, and the structures at the
addresses that `malloc` returned, so that `list_del`, `free` and a walk over a list are what
they are.  An access to a structure that is gone is `none`.

A call is told what `malloc` returns in it.  The heads of the lists are members of
`struct mc_priv`.

## Main definitions

* `ListHead` — where a `struct list_head` is.
* `McHeap` — `struct mc_priv`, with the structures on its lists; `McHeap.mcInit`.
* `McHeap.mcAllocNode`, `McHeap.mcDeallocNode`, `McHeap.mcProfile` — the calls.
* `Represents H m freeNode` — the lists of `m` are those in the heap.
* `mc_run_lists` — **the pointers do what the lists do**, in every run of a client.
-/

namespace TreeBitmap

open Ring

/-- Where a `struct list_head` is. -/
inductive ListHead
  /-- `&m->lm[i]`. -/
  | lm (i : Fin SHARE)
  /-- `&m->free_head[i][j]`. -/
  | freeHead (i : Fin SHARE) (j : ℕ)
  /-- The member `list` of the structure at an address that `malloc` returned. -/
  | entry (p : ℕ)
  | LIST_POISON1
  | LIST_POISON2
  | NULL
  deriving DecidableEq

/-- `list_entry`.  A head of a list is not a member of such a structure. -/
def listEntry : ListHead → Option ℕ
  | .entry p => some p
  | _ => none

/-- `struct mc_priv`, and the structures on its lists by their addresses. -/
structure McHeap where
  pfnbuf : ℕ → BitVec 64
  cs : Fin SHARE → CacheShare
  links : Heap ListHead
  /-- The `struct lm_area`s. -/
  areas : ℕ → Option LmArea
  /-- The `struct free_pointer`s. -/
  pointers : ℕ → Option ℕ
  lma : ℕ
  freeNode : Fin SHARE → ℕ → ℕ
  pfnReads : List ℕ

namespace McHeap

/-- The members of `struct mc_priv` that are not lists. -/
def members (H : McHeap) : McPriv := ⟨H.pfnbuf, H.cs, fun _ => [], fun _ _ => [], H.lma, H.pfnReads⟩

/-- `malloc` has returned `p`.  Nothing has been stored there yet. -/
def malloc (H : McHeap) (p : ℕ) : McHeap := { H with links := H.links.alloc (.entry p) .NULL .NULL }

/-- `free(fp)`. -/
def free (H : McHeap) (fp : ℕ) : McHeap :=
  { H with
    links := H.links.free (.entry fp)
    pointers := Function.update H.pointers fp none }

/-! ## `mc_init` -/

/-- The pointers in a `struct mc_priv` that is all zero. -/
def zeroLinks : Heap ListHead :=
  let zero : ListHead → Option ListHead
    | .lm _ => some .NULL
    | .freeHead _ j => if j < (1 <<< STRIDE) * 2 then some .NULL else none
    | _ => none
  ⟨zero, zero⟩

/-- The loop of `mc_init`, with `old_size` and `next_color`; the area of share `i` gets the
structure at `lmas i`. -/
def mcInitShare (lmas : Fin SHARE → ℕ) : McHeap × ℕ × ℕ → Fin SHARE → Option (McHeap × ℕ × ℕ)
  | (H, oldSize, nextColor), i => do
      let links ← initListHead H.links (.lm i)
      let links ← (List.range ((1 <<< STRIDE) * 2)).foldlM
        (fun links j => initListHead links (.freeHead i j)) links
      let H := McHeap.malloc { H with links := links } (lmas i)
      let size := (H.cs i).size
      let lma : LmArea := ⟨oldSize, oldSize, size, i⟩
      let oldSize := oldSize + size
      let color :=
        if (i : ℕ) = 0 then ((H.pfnbuf 0).toNat % PAGE_COLORS, 0 :: H.pfnReads)
        else (nextColor, H.pfnReads)
      let nextColor := (color.1 + size / PAGE_SIZE) % PAGE_COLORS
      let links ← initListHead H.links (.entry (lmas i))
      let links ← listAdd links (.entry (lmas i)) (.lm i)
      some ({ H with
        cs := Function.update H.cs i ⟨color.1, size⟩
        links := links
        areas := Function.update H.areas (lmas i) (some lma)
        pfnReads := color.2 }, oldSize, nextColor)

/-- `mc_init`, when it succeeds. -/
def mcInit (pfnbuf : ℕ → BitVec 64) (lmas : Fin SHARE → ℕ) : Option McHeap := do
  let (H, _, _) ← (List.finRange SHARE).foldlM (mcInitShare lmas)
    (⟨pfnbuf, fun i => ⟨0, shareSize i⟩, zeroLinks, fun _ => none, fun _ => none, 0,
      fun _ _ => 0, []⟩, 0, 0)
  some H

/-! ## Areas -/

/-- `lma_init`: the structure at `newLma` becomes the area after `lastLma`. -/
def lmaInit (H : McHeap) (share : Fin SHARE) (newLma : ℕ) (lastLma : LmArea) : Option McHeap := do
  let start := newStart H.members lastLma
  let links ← initListHead H.links (.entry newLma)
  let links ← listAddTail links (.entry newLma) (.lm share)
  some { H with
    links := links
    areas := Function.update H.areas newLma
      (some ⟨start, start, (H.cs lastLma.pcs).size, lastLma.pcs⟩)
    pfnReads :=
      if newPage H.members lastLma ≠ lastPage lastLma then newPage H.members lastLma :: H.pfnReads
      else H.pfnReads }

/-- The body of the loop of `find_lma`. -/
def findBody (H : McHeap) (nodeNum : ℕ) (found : Option ℕ) (pos : ListHead) :
    Option (Option ℕ × Bool) := do
  let p ← listEntry pos
  let lma ← H.areas p
  if nodeNum * NODE_SIZE < lma.left then some (some p, true) else some (found, false)

/-- The rest of `find_lma`: no area has room. -/
def growLma (H : McHeap) (share : Fin SHARE) (malloc : Option ℕ) : Option (Option ℕ × McHeap) := do
  let prev ← H.links.prev (.lm share)
  let lastLma ← listEntry prev
  match malloc with
  | none => some (none, H)
  | some p => do
      let last ← H.areas lastLma
      let H := { H.malloc p with lma := H.lma + 1 }
      let H ← lmaInit H share p last
      some (some p, H)

/-- `find_lma`: the address of the structure of the area. -/
def findLma (fuel : ℕ) (H : McHeap) (share : Fin SHARE) (nodeNum : ℕ) (malloc : Option ℕ) :
    Option (Option ℕ × McHeap) := do
  let first ← H.links.next (.lm share)
  let found ← forEach H.links (.lm share) (findBody H nodeNum) fuel first none
  match found with
  | some p => some (some p, H)
  | none => growLma H share malloc

/-- `lm_alloc`. -/
def lmAlloc (fuel : ℕ) (H : McHeap) (nodeNum : ℕ) (share : Fin SHARE) (malloc : Option ℕ) :
    Option (Option ℕ × McHeap) := do
  guard (nodeNum < (1 <<< STRIDE) * 2)
  let empty ← listEmpty H.links (.freeHead share nodeNum)
  if ¬ empty then do
    let first ← H.links.next (.freeHead share nodeNum)
    let fp ← listEntry first
    let links ← listDel .LIST_POISON1 .LIST_POISON2 H.links first
    let ret ← H.pointers fp
    some (some ret, McHeap.free { H with links := links } fp)
  else do
    let (found, H) ← findLma fuel H share nodeNum malloc
    match found with
    | none => some (none, H)
    | some p => do
        let lma ← H.areas p
        let (ret, lma) := lmaAlloc lma nodeNum
        some (ret, { H with areas := Function.update H.areas p (some lma) })

/-! ## The calls -/

/-- `mc_alloc_node`. -/
def mcAllocNode (fuel : ℕ) (H : McHeap) (nodeNum level : ℕ) (malloc : Option ℕ) :
    Option (Option ℕ × McHeap) :=
  if nodeNum = 0 then some (none, H)
  else if (1 <<< STRIDE) * 2 < nodeNum then some (none, H)
  else lmAlloc fuel H nodeNum (shareOf level) malloc

/-- `mc_dealloc_node`. -/
def mcDeallocNode (H : McHeap) (nodeNum level p : ℕ) (malloc : Option ℕ) : Option McHeap := do
  let fp ← malloc
  if (1 <<< STRIDE) * 2 < nodeNum then some H
  else do
    let share := shareOf level
    guard (nodeNum < (1 <<< STRIDE) * 2)
    let H := H.malloc fp
    let links ← initListHead H.links (.entry fp)
    let links ← listAdd links (.entry fp) (.freeHead share nodeNum)
    some { H with
      links := links
      pointers := Function.update H.pointers fp (some p) }

/-- The body of the inner loop of `mc_profile`. -/
def countBody (H : McHeap) (freeNode : ℕ) (pos : ListHead) : Option (ℕ × Bool) := do
  let fp ← listEntry pos
  let _ ← H.pointers fp
  some (freeNode + 1, false)

/-- The inner loop of `mc_profile`: every freed block of the list counts once more. -/
def profileList (fuel : ℕ) (H : McHeap) (i : Fin SHARE) (j : ℕ) : Option McHeap := do
  let first ← H.links.next (.freeHead i j)
  let count ← forEach H.links (.freeHead i j) H.countBody fuel first (H.freeNode i j)
  some { H with
    freeNode := Function.update H.freeNode i (Function.update (H.freeNode i) j count) }

/-- `mc_profile`: what it prints is in `free_node` and `lma` when it returns. -/
def mcProfile (fuel : ℕ) (H : McHeap) : Option McHeap :=
  (List.finRange SHARE).foldlM (fun H i =>
    (List.range ((1 <<< STRIDE) * 2)).foldlM (fun H j => profileList fuel H i j) H) H

end McHeap

/-! ## Clients -/

/-- A call, and what `malloc` returns in it. -/
inductive McOp
  | alloc (nodeNum level : ℕ) (malloc : Option ℕ)
  | dealloc (b : McBlock) (malloc : Option ℕ)
  | profile

/-- A call, with the blocks that the client holds before and after. -/
def McHeap.mcStep (fuel : ℕ) : McHeap × List McBlock → McOp → Option (McHeap × List McBlock)
  | (H, live), .alloc nodeNum level malloc => do
      let (ret, H) ← H.mcAllocNode fuel nodeNum level malloc
      match ret with
      | none => some (H, live)
      | some p => some (H, ⟨p, nodeNum, level⟩ :: live)
  | (H, live), .dealloc b malloc => do
      let H ← H.mcDeallocNode b.nodeNum b.level b.p malloc
      some (H, live.erase b)
  | (H, live), .profile => do
      let H ← H.mcProfile fuel
      some (H, live)

/-- There is no structure at the address. -/
def McHeap.Fresh (H : McHeap) (p : ℕ) : Prop := H.areas p = none ∧ H.pointers p = none

/-- The client keeps to its contract, and `malloc` never returns what is in use. -/
def McHeap.mcLegal : McHeap × List McBlock → McOp → Prop
  | (H, _), .alloc nodeNum _ malloc =>
      (1 ≤ nodeNum ∧ nodeNum < 2 * (1 <<< STRIDE)) ∧ ∀ p ∈ malloc, H.Fresh p
  | (H, live), .dealloc b malloc => b ∈ live ∧ ∀ p ∈ malloc, H.Fresh p
  | _, .profile => True

/-- What `mc_profile` leaves in `free_node`. -/
def profiled (m : McPriv) (freeNode : Fin SHARE → ℕ → ℕ) : Fin SHARE → ℕ → ℕ := fun i j =>
  if j < (1 <<< STRIDE) * 2 then freeNode i j + (m.freeHead i j).length else freeNode i j

/-- The same call on the lists, with what `mc_profile` adds up. -/
def listStep : (McPriv × List McBlock) × (Fin SHARE → ℕ → ℕ) → McOp →
    Option ((McPriv × List McBlock) × (Fin SHARE → ℕ → ℕ))
  | (st, freeNode), .alloc nodeNum level malloc => do
      let st ← mcStep st (.alloc nodeNum level malloc.isSome)
      some (st, freeNode)
  | (st, freeNode), .dealloc b malloc => do
      let st ← mcStep st (.dealloc b malloc.isSome)
      some (st, freeNode)
  | ((m, live), freeNode), .profile => some ((m, live), profiled m freeNode)

/-! ## What the pointers stand for -/

/-- The heads of the lists. -/
def ListHead.IsHead : ListHead → Prop
  | .lm _ => True
  | .freeHead _ j => j < 128
  | _ => False

/-- The heads of the lists, as a set. -/
def mcHeads : Set ListHead := {d | d.IsHead}

/-- The area on whose list a node is. -/
def McHeap.areaAt (H : McHeap) (d : ListHead) : Option LmArea := (listEntry d).bind H.areas

/-- The freed block that a node stands for. -/
def McHeap.pointerAt (H : McHeap) (d : ListHead) : Option ℕ := (listEntry d).bind H.pointers

/-- The lists of `m` are those in the heap, and there is no other structure in it. -/
structure Threaded (H : McHeap) (m : McPriv) (cells : ListHead → List ListHead) : Prop where
  family : Family H.links mcHeads cells
  areas : ∀ s, (cells (.lm s)).map H.areaAt = (m.lm s).map some
  pointers : ∀ s, ∀ j < 128, (cells (.freeHead s j)).map H.pointerAt = (m.freeHead s j).map some
  area_mem : ∀ p, (H.areas p).isSome → ∃ s, .entry p ∈ cells (.lm s)
  pointer_mem : ∀ p, (H.pointers p).isSome → ∃ s, ∃ j < 128, .entry p ∈ cells (.freeHead s j)

/-- The heap stands for `m`, and for the counts of `mc_profile`. -/
structure Represents (H : McHeap) (m : McPriv) (freeNode : Fin SHARE → ℕ → ℕ) : Prop where
  pfnbuf : H.pfnbuf = m.pfnbuf
  cs : H.cs = m.cs
  lma : H.lma = m.lma
  pfnReads : H.pfnReads = m.pfnReads
  freeNode : H.freeNode = freeNode
  lists : ∃ cells, Threaded H m cells

section Threaded

variable {H : McHeap} {m : McPriv} {cells : ListHead → List ListHead} {s : Fin SHARE} {p : ℕ}

theorem lm_mem_mcHeads (s : Fin SHARE) : ListHead.lm s ∈ mcHeads := trivial

theorem freeHead_mem_mcHeads (s : Fin SHARE) {j : ℕ} (hj : j < 128) :
    ListHead.freeHead s j ∈ mcHeads := hj

theorem entry_notMem_mcHeads (p : ℕ) : ListHead.entry p ∉ mcHeads := id

/-- A node that stands for something is a member of a structure. -/
theorem eq_entry_of_bind {β : Type} {f : ℕ → Option β} {d : ListHead} {b : β}
    (h : (listEntry d).bind f = some b) : ∃ p, d = .entry p ∧ f p = some b := by
  cases d with
  | entry p => exact ⟨p, rfl, h⟩
  | lm _ => cases h
  | freeHead _ _ => cases h
  | LIST_POISON1 => cases h
  | LIST_POISON2 => cases h
  | NULL => cases h

/-- What the nodes of a list stand for. -/
theorem exists_cell {β : Type} {f : ℕ → Option β} {ds : List ListHead} {bs : List β}
    (h : ds.map (fun d => (listEntry d).bind f) = bs.map some) {d : ListHead} (hd : d ∈ ds) :
    ∃ p b, d = .entry p ∧ f p = some b ∧ b ∈ bs := by
  have hmem := List.mem_map_of_mem (f := fun d => (listEntry d).bind f) hd
  rw [h, List.mem_map] at hmem
  obtain ⟨b, hb, heq⟩ := hmem
  obtain ⟨p, hp, hf⟩ := eq_entry_of_bind heq.symm
  exact ⟨p, b, hp, hf, hb⟩

theorem Threaded.notMem_uses (h : Threaded H m cells) (hp : H.Fresh p) :
    .entry p ∉ uses mcHeads cells := by
  rintro ⟨d, hd, hmem⟩
  rcases List.mem_cons.mp hmem with rfl | hmem
  · exact hd
  · cases d with
    | lm s =>
        obtain ⟨q, a, hq, ha, -⟩ := exists_cell (h.areas s) hmem
        cases hq
        rw [hp.1] at ha
        cases ha
    | freeHead s j =>
        obtain ⟨q, a, hq, ha, -⟩ := exists_cell (h.pointers s j hd) hmem
        cases hq
        rw [hp.2] at ha
        cases ha
    | entry _ => exact hd
    | LIST_POISON1 => exact hd
    | LIST_POISON2 => exact hd
    | NULL => exact hd

/-- What is read off a list depends on the structures of its nodes only. -/
theorem map_bind_congr {β : Type} {f g : ℕ → Option β} {ds : List ListHead}
    (h : ∀ p, .entry p ∈ ds → g p = f p) :
    ds.map (fun d => (listEntry d).bind g) = ds.map fun d => (listEntry d).bind f := by
  refine List.map_congr_left fun d hd => ?_
  cases d with
  | entry p => exact h p hd
  | lm _ => rfl
  | freeHead _ _ => rfl
  | LIST_POISON1 => rfl
  | LIST_POISON2 => rfl
  | NULL => rfl

/-- A structure that `malloc` has just given is on no list. -/
theorem exists_initEntry {heads : Set ListHead} (hf : Family H.links heads cells)
    (hp : .entry p ∉ uses heads cells) :
    ∃ links, initListHead (H.malloc p).links (.entry p) = some links ∧
      Family links heads cells ∧ links.Has (.entry p) ∧
      ∀ d ≠ .entry p, Same H.links links d :=
  initListHead_alloc hf hp .NULL .NULL

/-- The structure of an area changes in place. -/
theorem Threaded.cut (h : Threaded H m cells) {i : ℕ} (hi : (cells (.lm s))[i]? = some (.entry p))
    {a : LmArea} (ha : H.areas p = some a) (b : LmArea) :
    Threaded { H with areas := Function.update H.areas p (some b) } (m.setLma s i b) cells := by
  have hcell : ∀ t j, (cells (.lm t))[j]? = some (.entry p) → t = s ∧ j = i := by
    intro t j hj
    have hts : t = s := by
      have hheads := h.family.apart _ (lm_mem_mcHeads t) _ (lm_mem_mcHeads s) (.entry p)
        (List.mem_cons_of_mem _ (List.mem_of_getElem? hj))
        (List.mem_cons_of_mem _ (List.mem_of_getElem? hi))
      cases hheads
      rfl
    subst hts
    refine ⟨rfl, ?_⟩
    have hnodup := (List.nodup_cons.mp (h.family.circle _ (lm_mem_mcHeads t)).nodup).2
    obtain ⟨hlt, hget⟩ := List.getElem?_eq_some_iff.mp hj
    obtain ⟨hlt', hget'⟩ := List.getElem?_eq_some_iff.mp hi
    exact (hnodup.getElem_inj_iff).mp (hget.trans hget'.symm)
  have hlm : (m.lm s)[i]? = some a := by
    have hmap := congrArg (·[i]?) (h.areas s)
    simp only [List.getElem?_map, hi, Option.map_some, McHeap.areaAt, listEntry, Option.bind_some,
      ha] at hmap
    cases hget : (m.lm s)[i]? with
    | none => simp [hget] at hmap
    | some c => simp_all
  refine ⟨h.family, fun t => ?_, h.pointers, fun q hq => ?_, h.pointer_mem⟩
  · refine List.ext_getElem? fun j => ?_
    have hmap := congrArg (·[j]?) (h.areas t)
    simp only [List.getElem?_map] at hmap ⊢
    rw [getElem?_setLma hlm]
    split_ifs with hij
    · rw [hij.1, hij.2, hi]
      simp [McHeap.areaAt, listEntry]
    · rw [← hmap]
      cases hd : (cells (.lm t))[j]? with
      | none => rfl
      | some d =>
          obtain ⟨q, c, rfl, hq, -⟩ := exists_cell (h.areas t) (List.mem_of_getElem? hd)
          have hne : q ≠ p := by
            rintro rfl
            exact hij (hcell t j hd)
          simp [McHeap.areaAt, listEntry, Function.update_of_ne hne]
  · by_cases hqp : q = p
    · exact ⟨s, hqp ▸ List.mem_of_getElem? hi⟩
    · replace hq : (Function.update H.areas p (some b) q).isSome := hq
      rw [Function.update_of_ne hqp] at hq
      exact h.area_mem q hq

/-- A freed block leaves its list, and its structure is gone. -/
theorem Threaded.recycle (h : Threaded H m cells) {n : ℕ} (hn : n < 128) {q : ℕ} {qs : List ℕ}
    (hfree : m.freeHead s n = q :: qs) :
    ∃ fp rest links, cells (.freeHead s n) = .entry fp :: rest ∧ H.pointers fp = some q ∧
      listDel .LIST_POISON1 .LIST_POISON2 H.links (.entry fp) = some links ∧
      Threaded (McHeap.free { H with links := links } fp) (m.setFree s n qs)
        (Function.update cells (.freeHead s n) rest) := by
  have hd := freeHead_mem_mcHeads s hn
  have hmap := h.pointers s n hn
  rw [hfree] at hmap
  obtain ⟨e, rest, hcells⟩ : ∃ e rest, cells (.freeHead s n) = e :: rest := by
    cases hcells : cells (.freeHead s n) with
    | nil => simp [hcells] at hmap
    | cons e rest => exact ⟨e, rest, rfl⟩
  rw [hcells, List.map_cons, List.map_cons, List.cons.injEq] at hmap
  obtain ⟨hfirst, hrest⟩ := hmap
  obtain ⟨fp, rfl, hfp⟩ := eq_entry_of_bind hfirst
  have hcells' : cells (.freeHead s n) = [] ++ .entry fp :: rest := hcells
  obtain ⟨links, hdel, hfam⟩ := listDel_spec .LIST_POISON1 .LIST_POISON2 h.family hd hcells'
  have hnot := h.family.notMem_uses hd hcells'
  have hmem : .entry fp ∈ cells (.freeHead s n) := hcells ▸ List.mem_cons_self
  refine ⟨fp, rest, links, hcells, hfp, hdel, ⟨hfam.congr fun d hd' => ?_, fun t => ?_,
    fun t j hj => ?_, fun p hp => ?_, fun p hp => ?_⟩⟩
  · exact same_free fun heq => hnot (heq ▸ hd')
  · rw [Function.update_of_ne (by simp)]
    exact h.areas t
  · -- no other node is the one that is gone
    have hne : ∀ p, .entry p ∈ Function.update cells (.freeHead s n) rest (.freeHead t j) →
        Function.update H.pointers fp none p = H.pointers p := by
      intro p hp
      refine Function.update_of_ne ?_ _ _
      rintro rfl
      exact hnot ⟨_, freeHead_mem_mcHeads t hj, List.mem_cons_of_mem _ hp⟩
    refine (map_bind_congr hne).trans ?_
    simp only [McPriv.setFree]
    by_cases hts : t = s
    · subst hts
      by_cases hjn : j = n
      · subst hjn
        simp only [Function.update_self]
        exact hrest
      · rw [Function.update_of_ne (by simp [hjn]), Function.update_self,
          Function.update_of_ne hjn]
        exact h.pointers t j hj
    · rw [Function.update_of_ne (by simp [hts]), Function.update_of_ne hts]
      exact h.pointers t j hj
  · obtain ⟨t, ht⟩ := h.area_mem p hp
    exact ⟨t, by rwa [Function.update_of_ne (by simp)]⟩
  · replace hp : (Function.update H.pointers fp none p).isSome := hp
    have hpfp : p ≠ fp := by
      rintro rfl
      rw [Function.update_self] at hp
      cases hp
    rw [Function.update_of_ne hpfp] at hp
    obtain ⟨t, j, hj, ht⟩ := h.pointer_mem p hp
    refine ⟨t, j, hj, ?_⟩
    by_cases htj : ListHead.freeHead t j = .freeHead s n
    · rw [htj, hcells, List.mem_cons] at ht
      rw [htj, Function.update_self]
      exact ht.resolve_left fun heq => hpfp (ListHead.entry.inj heq)
    · rwa [Function.update_of_ne htj]

/-- A freed block comes to the front of its list, with a structure of its own. -/
theorem Threaded.release (h : Threaded H m cells) {n : ℕ} (hn : n < 128) {fp : ℕ} (hfp : H.Fresh fp)
    (q : ℕ) :
    ∃ links links', initListHead (H.malloc fp).links (.entry fp) = some links ∧
      listAdd links (.entry fp) (.freeHead s n) = some links' ∧
      Threaded { H.malloc fp with
          links := links'
          pointers := Function.update H.pointers fp (some q) }
        (m.setFree s n (q :: m.freeHead s n))
        (Function.update cells (.freeHead s n) (.entry fp :: cells (.freeHead s n))) := by
  have hd := freeHead_mem_mcHeads s hn
  have hnot := h.notMem_uses hfp
  obtain ⟨links, hinit, hfam, hhas, -⟩ := exists_initEntry h.family hnot
  obtain ⟨links', hadd, hfam'⟩ := listAdd_spec hfam hd hnot hhas
  have hne : ∀ p t j, j < 128 → .entry p ∈ cells (.freeHead t j) →
      Function.update H.pointers fp (some q) p = H.pointers p := by
    intro p t j hj hp
    refine Function.update_of_ne ?_ _ _
    rintro rfl
    exact hnot ⟨_, freeHead_mem_mcHeads t hj, List.mem_cons_of_mem _ hp⟩
  refine ⟨links, links', hinit, hadd, ⟨hfam', fun t => ?_, fun t j hj => ?_, fun p hp => ?_,
    fun p hp => ?_⟩⟩
  · rw [Function.update_of_ne (by simp)]
    exact h.areas t
  · have hold := (map_bind_congr fun p => hne p t j hj).trans (h.pointers t j hj)
    simp only [McPriv.setFree]
    by_cases hts : t = s
    · subst hts
      by_cases hjn : j = n
      · subst hjn
        simp only [Function.update_self, List.map_cons, List.cons.injEq]
        exact ⟨Function.update_self _ _ _, hold⟩
      · rw [Function.update_of_ne (by simp [hjn]), Function.update_self, Function.update_of_ne hjn]
        exact hold
    · rw [Function.update_of_ne (by simp [hts]), Function.update_of_ne hts]
      exact hold
  · obtain ⟨t, ht⟩ := h.area_mem p hp
    exact ⟨t, by rwa [Function.update_of_ne (by simp)]⟩
  · replace hp : (Function.update H.pointers fp (some q) p).isSome := hp
    by_cases hpfp : p = fp
    · refine ⟨s, n, hn, ?_⟩
      rw [hpfp, Function.update_self]
      exact List.mem_cons_self
    · rw [Function.update_of_ne hpfp] at hp
      obtain ⟨t, j, hj, ht⟩ := h.pointer_mem p hp
      refine ⟨t, j, hj, ?_⟩
      by_cases htj : ListHead.freeHead t j = .freeHead s n
      · rw [htj, Function.update_self]
        exact List.mem_cons_of_mem _ (htj ▸ ht)
      · rwa [Function.update_of_ne htj]

/-- An area comes to the end of its list, with a structure of its own. -/
theorem Threaded.grow (h : Threaded H m cells) (hp : H.Fresh p) (s : Fin SHARE) (a : LmArea) :
    ∃ links links', initListHead (H.malloc p).links (.entry p) = some links ∧
      listAddTail links (.entry p) (.lm s) = some links' ∧
      ∀ (H' : McHeap) (m' : McPriv), H'.links = links' →
        H'.areas = Function.update H.areas p (some a) → H'.pointers = H.pointers →
        m'.lm = Function.update m.lm s (m.lm s ++ [a]) → m'.freeHead = m.freeHead →
        Threaded H' m' (Function.update cells (.lm s) (cells (.lm s) ++ [.entry p])) := by
  have hd := lm_mem_mcHeads s
  have hnot := h.notMem_uses hp
  obtain ⟨links, hinit, hfam, hhas, -⟩ := exists_initEntry h.family hnot
  obtain ⟨links', hadd, hfam'⟩ := listAddTail_spec hfam hd hnot hhas
  refine ⟨links, links', hinit, hadd, fun H' m' hlinks hareas hpointers hlm hfree =>
    ⟨hlinks ▸ hfam', fun t => ?_, fun t j hj => ?_, fun q hq => ?_, fun q hq => ?_⟩⟩
  · have hne : ∀ q, .entry q ∈ cells (.lm t) →
        Function.update H.areas p (some a) q = H.areas q := by
      intro q hq
      refine Function.update_of_ne ?_ _ _
      rintro rfl
      exact hnot ⟨_, lm_mem_mcHeads t, List.mem_cons_of_mem _ hq⟩
    have hold := (map_bind_congr hne).trans (h.areas t)
    have hat : H'.areaAt = fun d => (listEntry d).bind (Function.update H.areas p (some a)) := by
      rw [← hareas]
      rfl
    rw [hlm, hat]
    by_cases hts : t = s
    · subst hts
      rw [Function.update_self, Function.update_self, List.map_append, List.map_append, hold]
      simp [listEntry]
    · rw [Function.update_of_ne (by simp [hts]), Function.update_of_ne hts]
      exact hold
  · have hat : H'.pointerAt = H.pointerAt := by
      funext d
      rw [McHeap.pointerAt, hpointers, McHeap.pointerAt]
    rw [hfree, hat, Function.update_of_ne (by simp)]
    exact h.pointers t j hj
  · rw [hareas] at hq
    by_cases hqp : q = p
    · refine ⟨s, ?_⟩
      rw [hqp, Function.update_self]
      exact List.mem_append_right _ (List.mem_singleton_self _)
    · rw [Function.update_of_ne hqp] at hq
      obtain ⟨t, ht⟩ := h.area_mem q hq
      refine ⟨t, ?_⟩
      by_cases hts : ListHead.lm t = .lm s
      · rw [hts, Function.update_self]
        exact List.mem_append_left _ (hts ▸ ht)
      · rwa [Function.update_of_ne hts]
  · rw [hpointers] at hq
    obtain ⟨t, j, hj, ht⟩ := h.pointer_mem q hq
    exact ⟨t, j, hj, by rwa [Function.update_of_ne (by simp)]⟩

end Threaded

/-! ## The calls do the same -/

section Calls

variable {H : McHeap} {m : McPriv} {freeNode : Fin SHARE → ℕ → ℕ}
  {cells : ListHead → List ListHead} {s : Fin SHARE} {n : ℕ}

/-- The loop of `find_lma` finds the first area with room. -/
theorem forList_findBody {H : McHeap} (n : ℕ) {ds : List ListHead} {as : List LmArea}
    (h : ds.map H.areaAt = as.map some) :
    match as.findIdx? fun lma => n * NODE_SIZE < lma.left with
    | none => forList (H.findBody n) ds none = some none
    | some i => ∃ p, ds[i]? = some (.entry p) ∧ forList (H.findBody n) ds none = some (some p) := by
  induction ds generalizing as with
  | nil =>
      cases as with
      | nil => rfl
      | cons a as => simp at h
  | cons d ds ih =>
      cases as with
      | nil => simp at h
      | cons a as =>
          rw [List.map_cons, List.map_cons, List.cons.injEq] at h
          obtain ⟨hfirst, hrest⟩ := h
          obtain ⟨p, rfl, hp⟩ := eq_entry_of_bind hfirst
          have hrec := ih hrest
          rw [List.findIdx?_cons, forList]
          simp only [McHeap.findBody, listEntry, hp, Option.bind_eq_bind, Option.bind_some]
          by_cases hfits : n * NODE_SIZE < a.left
          · simp [hfits]
          · simp only [hfits, decide_false, Bool.false_eq_true, if_false, Option.bind_some]
            cases hfind : as.findIdx? fun lma => n * NODE_SIZE < lma.left with
            | none =>
                rw [hfind] at hrec
                exact hrec
            | some i =>
                rw [hfind] at hrec
                exact hrec

theorem newStart_congr {m₁ m₂ : McPriv} (hpfn : m₁.pfnbuf = m₂.pfnbuf) (hcs : m₁.cs = m₂.cs)
    (last : LmArea) : newStart m₁ last = newStart m₂ last ∧ newPage m₁ last = newPage m₂ last := by
  have hpage : newPage m₁ last = newPage m₂ last := by rw [newPage, newPage, hcs]
  exact ⟨by rw [newStart, newStart, hpage, hpfn, hcs], hpage⟩

theorem Threaded.length_eq (h : Threaded H m cells) (s : Fin SHARE) :
    (cells (.lm s)).length = (m.lm s).length := by
  have hlen := congrArg List.length (h.areas s)
  rwa [List.length_map, List.length_map] at hlen

/-- The last entry of a list of areas is that of the last area. -/
theorem Threaded.exists_last (h : Threaded H m cells) {last : LmArea}
    (hlast : (m.lm s).getLast? = some last) :
    ∃ q, H.links.prev (.lm s) = some (.entry q) ∧ H.areas q = some last := by
  have hmap := congrArg List.getLast? (h.areas s)
  rw [List.getLast?_map, List.getLast?_map, hlast, Option.map_some, Option.map_eq_some_iff] at hmap
  obtain ⟨d, hd, hat⟩ := hmap
  obtain ⟨q, rfl, hq⟩ := eq_entry_of_bind hat
  refine ⟨q, ?_, hq⟩
  rw [(h.family.circle _ (lm_mem_mcHeads s)).prev_head, List.getLastD_eq_getLast?, hd]
  rfl

/-- The loop of `find_lma` goes over the areas. -/
theorem Threaded.findLma_eq (h : Threaded H m cells) {fuel : ℕ} (hfuel : (m.lm s).length < fuel)
    (n : ℕ) (malloc : Option ℕ) :
    McHeap.findLma fuel H s n malloc =
      (forList (H.findBody n) (cells (.lm s)) none).bind fun found =>
        match found with
        | some p => some (some p, H)
        | none => H.growLma s malloc := by
  have hlen : (cells (.lm s)).length < fuel := (h.length_eq s).symm ▸ hfuel
  have hloop := (h.family.circle _ (lm_mem_mcHeads s)).forEach_eq (H.findBody n) hlen none
  rw [← hloop, Option.bind_assoc]
  rfl

/-- A new area is the same area, and the last on the list. -/
theorem Represents.growLma (h : Represents H m freeNode) (hlists : Threaded H m cells)
    {last : LmArea} (hlast : (m.lm s).getLast? = some last) {p : ℕ} (hp : H.Fresh p) :
    ∃ H', H.growLma s (some p) = some (some p, H') ∧
      Represents H' (TreeBitmap.lmaInit { m with lma := m.lma + 1 } s last) freeNode ∧
      Threaded H' (TreeBitmap.lmaInit { m with lma := m.lma + 1 } s last)
        (Function.update cells (.lm s) (cells (.lm s) ++ [.entry p])) := by
  obtain ⟨q, hprev, hq⟩ := hlists.exists_last hlast
  let H₁ : McHeap := { H.malloc p with lma := H.lma + 1 }
  let m₁ : McPriv := { m with lma := m.lma + 1 }
  have hsize : (H₁.cs last.pcs).size = (m₁.cs last.pcs).size := by
    change (H.cs last.pcs).size = (m.cs last.pcs).size
    rw [h.cs]
  have hstart : newStart H₁.members last = newStart m₁ last ∧
      newPage H₁.members last = newPage m₁ last := newStart_congr h.pfnbuf h.cs last
  obtain ⟨links, links', hinit, hadd, hgrow⟩ := hlists.grow hp s
    ⟨newStart m₁ last, newStart m₁ last, (m₁.cs last.pcs).size, last.pcs⟩
  let H' : McHeap := { H₁ with
    links := links'
    areas := Function.update H.areas p
      (some ⟨newStart m₁ last, newStart m₁ last, (m₁.cs last.pcs).size, last.pcs⟩)
    pfnReads :=
      if newPage m₁ last ≠ lastPage last then newPage m₁ last :: H.pfnReads else H.pfnReads }
  have hlists' := hgrow H' (TreeBitmap.lmaInit m₁ s last) rfl rfl rfl rfl rfl
  have hinit' : McHeap.lmaInit H₁ s p last = some H' := by
    refine Option.bind_eq_some_iff.mpr ⟨links, hinit, ?_⟩
    refine Option.bind_eq_some_iff.mpr ⟨links', hadd, ?_⟩
    rw [hstart.1, hstart.2, hsize]
    rfl
  refine ⟨H', ?_, ⟨h.pfnbuf, h.cs, congrArg (· + 1) h.lma, ?_, h.freeNode, _, hlists'⟩, hlists'⟩
  · refine Option.bind_eq_some_iff.mpr ⟨_, hprev, ?_⟩
    refine Option.bind_eq_some_iff.mpr ⟨q, rfl, ?_⟩
    refine Option.bind_eq_some_iff.mpr ⟨last, hq, ?_⟩
    exact Option.bind_eq_some_iff.mpr ⟨H', hinit', rfl⟩
  · change (if _ then _ :: H.pfnReads else H.pfnReads) = if _ then _ :: m.pfnReads else m.pfnReads
    rw [h.pfnReads]

/-- **`find_lma` does the same**, and the structure it returns is that of the area. -/
theorem Represents.findLma (h : Represents H m freeNode) {fuel : ℕ} (hfuel : (m.lm s).length < fuel)
    (hne : m.lm s ≠ []) (n : ℕ) {malloc : Option ℕ} (hfresh : ∀ p ∈ malloc, H.Fresh p) :
    ∃ found H' m' cells, TreeBitmap.findLma m s n malloc.isSome = some (found, m') ∧
      McHeap.findLma fuel H s n malloc =
        some (found.bind fun i => (cells (.lm s))[i]?.bind listEntry, H') ∧
      Represents H' m' freeNode ∧ Threaded H' m' cells ∧ ∀ i ∈ found, i < (m'.lm s).length := by
  obtain ⟨cells, hlists⟩ := h.lists
  have hloop := forList_findBody n (hlists.areas s)
  have heq := hlists.findLma_eq hfuel n malloc
  cases hfind : (m.lm s).findIdx? fun lma => n * NODE_SIZE < lma.left with
  | some i =>
      rw [hfind] at hloop
      obtain ⟨p, hp, hbody⟩ := hloop
      refine ⟨some i, H, m, cells, ?_, ?_, h, hlists, fun j hj => ?_⟩
      · rw [TreeBitmap.findLma, hfind]
      · rw [heq, hbody, Option.bind_some, Option.bind_some, hp]
        rfl
      · obtain rfl := Option.some.inj hj
        exact (List.findIdx?_eq_some_iff_getElem.mp hfind).1
  | none =>
      rw [hfind] at hloop
      have hlast := List.getLast?_eq_some_getLast hne
      cases malloc with
      | none =>
          obtain ⟨q, hprev, -⟩ := hlists.exists_last hlast
          refine ⟨none, H, m, cells, ?_, ?_, h, hlists, by simp⟩
          · simp [TreeBitmap.findLma, hfind, hlast]
          · rw [heq, hloop, Option.bind_some]
            refine Option.bind_eq_some_iff.mpr ⟨_, hprev, ?_⟩
            exact Option.bind_eq_some_iff.mpr ⟨q, rfl, rfl⟩
      | some p =>
          obtain ⟨H', hgrow, hrep, hlists'⟩ := h.growLma hlists hlast (hfresh p rfl)
          refine ⟨some (m.lm s).length, H', _, _, ?_, ?_, hrep, hlists', fun j hj => ?_⟩
          · simp [TreeBitmap.findLma, hfind, hlast]
          · rw [heq, hloop, Option.bind_some, hgrow, Option.bind_some, Function.update_self,
              ← hlists.length_eq s, List.getElem?_concat_length]
            rfl
          · obtain rfl := Option.some.inj hj
            simp [TreeBitmap.lmaInit]

/-- The structure of an area that a walk has found. -/
theorem Threaded.exists_area (h : Threaded H m cells) {i : ℕ} (hi : i < (m.lm s).length) :
    ∃ p a, (cells (.lm s))[i]? = some (.entry p) ∧ H.areas p = some a ∧
      (m.lm s)[i]? = some a := by
  have hmap := congrArg (·[i]?) (h.areas s)
  simp only [List.getElem?_map, List.getElem?_eq_getElem hi, Option.map_some] at hmap
  obtain ⟨d, hd, hat⟩ := Option.map_eq_some_iff.mp hmap
  obtain ⟨p, rfl, hp⟩ := eq_entry_of_bind hat
  exact ⟨p, _, hd, hp, List.getElem?_eq_getElem hi⟩

/-- **`lm_alloc` does the same.** -/
theorem Represents.lmAlloc (h : Represents H m freeNode) {fuel : ℕ} (hfuel : (m.lm s).length < fuel)
    (hne : m.lm s ≠ []) (hn : n < 128) {malloc : Option ℕ} (hfresh : ∀ p ∈ malloc, H.Fresh p) :
    ∃ ret H' m', TreeBitmap.lmAlloc m n s malloc.isSome = some (ret, m') ∧
      McHeap.lmAlloc fuel H n s malloc = some (ret, H') ∧ Represents H' m' freeNode := by
  have hbound : n < (1 <<< STRIDE) * 2 := hn
  have hguard : guard (f := Option) (n < (1 <<< STRIDE) * 2) = some () := if_pos hbound
  rcases hfree : m.freeHead s n with _ | ⟨q, qs⟩
  · obtain ⟨found, H₁, m₁, cells, hfind, hfind', hrep, hlists, hlt⟩ :=
      h.findLma hfuel hne n hfresh
    have hempty : listEmpty H.links (.freeHead s n) = some true := by
      obtain ⟨cells, hlists⟩ := h.lists
      have hmap := hlists.pointers s n hn
      rw [hfree, List.map_nil, List.map_eq_nil_iff] at hmap
      rw [listEmpty_spec (hlists.family.circle _ (freeHead_mem_mcHeads s hn)), hmap]
      rfl
    cases found with
    | none =>
        refine ⟨none, H₁, m₁, ?_, ?_, hrep⟩
        · simp only [TreeBitmap.lmAlloc, hguard, hfree, hfind, Option.bind_eq_bind,
            Option.bind_some]
        · simp only [McHeap.lmAlloc, hguard, hempty, hfind', Option.bind_eq_bind, Option.bind_some,
            not_true_eq_false, if_false, Option.bind_none]
    | some i =>
        obtain ⟨p, a, hp, hat, hget⟩ := hlists.exists_area (hlt i rfl)
        refine ⟨(lmaAlloc a n).1,
          { H₁ with areas := Function.update H₁.areas p (some (lmaAlloc a n).2) },
          m₁.setLma s i (lmaAlloc a n).2, ?_, ?_,
          ⟨hrep.pfnbuf, hrep.cs, hrep.lma, hrep.pfnReads, hrep.freeNode, cells,
            hlists.cut hp hat _⟩⟩
        · simp only [TreeBitmap.lmAlloc, hguard, hfree, hfind, hget, Option.bind_eq_bind,
            Option.bind_some]
        · simp only [McHeap.lmAlloc, hguard, hempty, hfind', hp, listEntry, hat,
            Option.bind_eq_bind, Option.bind_some, not_true_eq_false, if_false]
  · obtain ⟨cells, hlists⟩ := h.lists
    obtain ⟨fp, rest, links, hcells, hfp, hdel, hlists'⟩ := hlists.recycle hn hfree
    have hc := hlists.family.circle _ (freeHead_mem_mcHeads s hn)
    rw [hcells] at hc
    refine ⟨some q, McHeap.free { H with links := links } fp, m.setFree s n qs, ?_, ?_,
      ⟨h.pfnbuf, h.cs, h.lma, h.pfnReads, h.freeNode, _, hlists'⟩⟩
    · simp only [TreeBitmap.lmAlloc, hguard, hfree, Option.bind_eq_bind, Option.bind_some]
    · simp only [McHeap.lmAlloc, hguard, listEmpty_spec hc, hc.next_head, List.headD_cons,
        listEntry, hdel, hfp, List.isEmpty_cons, Option.bind_eq_bind, Option.bind_some,
        Bool.false_eq_true, not_false_eq_true, if_true]

theorem Represents.mcAllocNode (h : Represents H m freeNode) {fuel level : ℕ}
    (hfuel : (m.lm (shareOf level)).length < fuel) (hne : m.lm (shareOf level) ≠ []) (hpos : 1 ≤ n)
    (hn : n < 128) {malloc : Option ℕ} (hfresh : ∀ p ∈ malloc, H.Fresh p) :
    ∃ ret H' m', TreeBitmap.mcAllocNode m n level malloc.isSome = some (ret, m') ∧
      McHeap.mcAllocNode fuel H n level malloc = some (ret, H') ∧ Represents H' m' freeNode := by
  have hnot : ¬ (1 <<< STRIDE) * 2 < n := hn.le.not_gt
  rw [TreeBitmap.mcAllocNode, McHeap.mcAllocNode, if_neg (by omega), if_neg hnot, if_neg (by omega),
    if_neg hnot]
  exact h.lmAlloc hfuel hne hn hfresh

/-- **`mc_dealloc_node` does the same.** -/
theorem Represents.mcDeallocNode (h : Represents H m freeNode) (hn : n < 128) (level q : ℕ) {fp : ℕ}
    (hfp : H.Fresh fp) :
    ∃ H', McHeap.mcDeallocNode H n level q (some fp) = some H' ∧
      Represents H' (m.setFree (shareOf level) n (q :: m.freeHead (shareOf level) n)) freeNode := by
  have hbound : n < (1 <<< STRIDE) * 2 := hn
  have hguard : guard (f := Option) (n < (1 <<< STRIDE) * 2) = some () := if_pos hbound
  obtain ⟨cells, hlists⟩ := h.lists
  obtain ⟨links, links', hinit, hadd, hlists'⟩ := hlists.release (s := shareOf level) hn hfp q
  refine ⟨{ H.malloc fp with
    links := links'
    pointers := Function.update H.pointers fp (some q) }, ?_,
    ⟨h.pfnbuf, h.cs, h.lma, h.pfnReads, h.freeNode, _, hlists'⟩⟩
  simp only [McHeap.mcDeallocNode, if_neg hbound.le.not_gt, hguard, hinit, hadd,
    Option.bind_eq_bind, Option.bind_some]
  rfl

/-! ## `mc_profile` -/

theorem Represents.setFreeNode (h : Represents H m freeNode) (freeNode' : Fin SHARE → ℕ → ℕ) :
    Represents { H with freeNode := freeNode' } m freeNode' := by
  obtain ⟨cells, hlists⟩ := h.lists
  exact ⟨h.pfnbuf, h.cs, h.lma, h.pfnReads, rfl, cells, hlists.family, hlists.areas,
    hlists.pointers, hlists.area_mem, hlists.pointer_mem⟩

/-- A walk over freed blocks counts them. -/
theorem forList_countBody {ds : List ListHead} {ps : List ℕ} (h : ds.map H.pointerAt = ps.map some)
    (freeNode : ℕ) : forList H.countBody ds freeNode = some (freeNode + ps.length) := by
  have hbody : H.countBody = fun freeNode d =>
      (H.pointerAt d).bind fun _ => some (freeNode + 1, false) := by
    funext freeNode d
    exact (Option.bind_assoc _ _ _).symm
  rw [hbody, forList_bind h]
  clear h
  induction ps generalizing freeNode with
  | nil => rfl
  | cons q ps ih =>
      rw [List.length_cons, Nat.add_comm ps.length, ← Nat.add_assoc]
      exact ih (freeNode + 1)

theorem Represents.profileList (h : Represents H m freeNode) (i : Fin SHARE) {j fuel : ℕ}
    (hj : j < 128) (hfuel : (m.freeHead i j).length < fuel) :
    McHeap.profileList fuel H i j = some { H with
      freeNode := Function.update H.freeNode i (Function.update (H.freeNode i) j
        (H.freeNode i j + (m.freeHead i j).length)) } := by
  obtain ⟨cells, hlists⟩ := h.lists
  have hmap := hlists.pointers i j hj
  have hlen := congrArg List.length hmap
  rw [List.length_map, List.length_map] at hlen
  have hloop := (hlists.family.circle _ (freeHead_mem_mcHeads i hj)).forEach_eq H.countBody
    (hlen.symm ▸ hfuel) (H.freeNode i j)
  rw [forList_countBody hmap] at hloop
  obtain ⟨first, hfirst, hcount⟩ := Option.bind_eq_some_iff.mp hloop
  refine Option.bind_eq_some_iff.mpr ⟨first, hfirst, ?_⟩
  exact Option.bind_eq_some_iff.mpr ⟨_, hcount, rfl⟩

/-- One share. -/
theorem Represents.profileShare (h : Represents H m freeNode) (i : Fin SHARE) {fuel : ℕ}
    (hfuel : ∀ i j, (m.freeHead i j).length < fuel) :
    (List.range ((1 <<< STRIDE) * 2)).foldlM (fun H j => McHeap.profileList fuel H i j) H =
      some { H with freeNode := Function.update H.freeNode i (profiled m H.freeNode i) } := by
  let upTo (k : ℕ) : ℕ → ℕ := fun j =>
    if j < k then H.freeNode i j + (m.freeHead i j).length else H.freeNode i j
  have hstep : ∀ k, k < 128 →
      McHeap.profileList fuel { H with freeNode := Function.update H.freeNode i (upTo k) } i k =
        some { H with freeNode := Function.update H.freeNode i (upTo (k + 1)) } := by
    intro k hk
    have hupTo :
        Function.update (upTo k) k (upTo k k + (m.freeHead i k).length) = upTo (k + 1) := by
      funext j
      by_cases hjk : j = k
      · subst hjk
        simp [upTo]
      · have hiff : j < k + 1 ↔ j < k := by omega
        simp only [upTo, Function.update_of_ne hjk, hiff]
    rw [(h.setFreeNode _).profileList i hk (hfuel i k)]
    simp only [Function.update_self, Function.update_idem, hupTo]
  obtain ⟨H', hrun, rfl⟩ := Run.foldlM_range (f := fun H j => McHeap.profileList fuel H i j)
    (n := (1 <<< STRIDE) * 2) (s := H)
    (fun k H' => H' = { H with freeNode := Function.update H.freeNode i (upTo k) })
    (by simp [upTo]) (fun k H' hk hH' => ⟨_, hH' ▸ hstep k hk, rfl⟩)
  exact hrun

/-- **`mc_profile` adds the lengths of the lists to what it has found before.** -/
theorem Represents.mcProfile (h : Represents H m freeNode) {fuel : ℕ}
    (hfuel : ∀ i j, (m.freeHead i j).length < fuel) :
    ∃ H', McHeap.mcProfile fuel H = some H' ∧ Represents H' m (profiled m freeNode) := by
  have hrange : List.finRange SHARE = [0, 1, 2] := rfl
  have hshare (freeNode : Fin SHARE → ℕ → ℕ) (i : Fin SHARE) :=
    (h.setFreeNode freeNode).profileShare i hfuel
  refine ⟨{ H with freeNode := profiled m H.freeNode }, ?_, ?_⟩
  · rw [McHeap.mcProfile, hrange, List.foldlM_cons, h.profileShare 0 hfuel]
    simp only [Option.bind_eq_bind, Option.bind_some, List.foldlM_cons, List.foldlM_nil, hshare]
    -- A share does not look at the counts of another.
    have hall : Function.update (Function.update (Function.update H.freeNode 0
        (profiled m H.freeNode 0)) 1 (profiled m H.freeNode 1)) 2 (profiled m H.freeNode 2) =
        profiled m H.freeNode := funext_share rfl rfl rfl
    exact congrArg (fun freeNode => some { H with freeNode := freeNode }) hall
  · rw [h.freeNode]
    exact h.setFreeNode _

end Calls

/-! ## `mc_init` -/

section Init

/-- The lists when `mc_init` has come to its end. -/
def initCells (lmas : Fin SHARE → ℕ) : ListHead → List ListHead
  | .lm s => [.entry (lmas s)]
  | _ => []

/-- Whether a node is the head of a list of one of the shares. -/
def ListHead.IsHeadOf (shares : List (Fin SHARE)) : ListHead → Prop
  | .lm s => s ∈ shares
  | .freeHead s j => s ∈ shares ∧ j < 128
  | _ => False

/-- The heads of the lists of some shares. -/
def headsOf (shares : List (Fin SHARE)) : Set ListHead := {d | d.IsHeadOf shares}

/-- What the loop of `mc_init` has made for the shares it has done. -/
structure Begun (lmas : Fin SHARE → ℕ) (shares : List (Fin SHARE)) (H : McHeap) (m : McPriv) :
    Prop where
  pfnbuf : H.pfnbuf = m.pfnbuf
  cs : H.cs = m.cs
  lma : H.lma = m.lma
  pfnReads : H.pfnReads = m.pfnReads
  freeNode : H.freeNode = fun _ _ => 0
  family : Family H.links (headsOf shares) (initCells lmas)
  has : ∀ d ∈ mcHeads, H.links.Has d
  areas : ∀ s ∈ shares, (m.lm s).map some = [H.areas (lmas s)]
  area_mem : ∀ p, (H.areas p).isSome → ∃ s ∈ shares, p = lmas s
  pointers : H.pointers = fun _ => none

variable {lmas : Fin SHARE → ℕ} {shares : List (Fin SHARE)} {H : McHeap} {m : McPriv}
  {i : Fin SHARE}

/-- The entries of the lists are structures, not heads. -/
theorem mem_initCells {d e : ListHead} (h : e ∈ initCells lmas d) :
    ∃ s, d = .lm s ∧ e = .entry (lmas s) := by
  cases d with
  | lm s => exact ⟨s, rfl, List.mem_singleton.mp h⟩
  | freeHead _ _ => cases h
  | entry _ => cases h
  | LIST_POISON1 => cases h
  | LIST_POISON2 => cases h
  | NULL => cases h

/-- The loop over `free_head[i]`. -/
theorem foldlM_initListHead {h : Heap ListHead} {heads : Set ListHead}
    {cells : ListHead → List ListHead} (hf : Family h heads cells) (hhas : ∀ d ∈ mcHeads, h.Has d)
    (hnot : ∀ j, .freeHead i j ∉ uses heads cells) (hcells : ∀ j, cells (.freeHead i j) = []) :
    ∃ h', (List.range ((1 <<< STRIDE) * 2)).foldlM
        (fun links j => initListHead links (.freeHead i j)) h = some h' ∧
      Family h' (heads ∪ {d | ∃ j < 128, d = .freeHead i j}) cells ∧ ∀ d ∈ mcHeads, h'.Has d := by
  refine Run.foldlM_range (fun k h' =>
    Family h' (heads ∪ {d | ∃ j < k, d = .freeHead i j}) cells ∧ ∀ d ∈ mcHeads, h'.Has d)
    ⟨?_, hhas⟩ fun k h' hk hh' => ?_
  · simpa using hf
  · obtain ⟨hf', hhas'⟩ := hh'
    have hk' : k < 128 := hk
    have hfresh : .freeHead i k ∉ uses (heads ∪ {d | ∃ j < k, d = .freeHead i j}) cells := by
      rintro ⟨d, hd | ⟨j, hj, rfl⟩, hmem⟩
      · exact hnot k ⟨d, hd, hmem⟩
      · rw [hcells j, List.mem_singleton] at hmem
        cases hmem
        exact lt_irrefl _ hj
    obtain ⟨h'', hinit, hf'', hsame⟩ := initListHead_family hf' hfresh
      (hhas' _ (freeHead_mem_mcHeads i hk')) (hcells k)
    have hheads : insert (ListHead.freeHead i k) (heads ∪ {d | ∃ j < k, d = .freeHead i j}) =
        heads ∪ {d | ∃ j < k + 1, d = .freeHead i j} := by
      ext d
      constructor
      · rintro (rfl | hd | ⟨j, hj, rfl⟩)
        · exact .inr ⟨k, Nat.lt_succ_self k, rfl⟩
        · exact .inl hd
        · exact .inr ⟨j, Nat.lt_succ_of_lt hj, rfl⟩
      · rintro (hd | ⟨j, hj, rfl⟩)
        · exact .inr (.inl hd)
        · rcases Nat.lt_succ_iff_lt_or_eq.mp hj with hlt | rfl
          · exact .inr (.inr ⟨j, hlt, rfl⟩)
          · exact .inl rfl
    refine ⟨h'', hinit, hheads ▸ hf'', fun d hd => ?_⟩
    by_cases heq : d = .freeHead i k
    · exact (hf''.circle _ (.inl heq)).has List.mem_cons_self
    · exact (hsame d heq).has (hhas' d hd)

/-- The lists of one more share. -/
theorem headsOf_cons :
    insert (ListHead.lm i) (headsOf shares) ∪ {d | ∃ j < 128, d = .freeHead i j} =
      headsOf (i :: shares) := by
  ext d
  simp only [Set.mem_union, Set.mem_insert_iff, headsOf, Set.mem_ofPred_eq]
  cases d with
  | lm s => simp [ListHead.IsHeadOf]
  | freeHead s j =>
      simp only [ListHead.IsHeadOf, reduceCtorEq, false_or, ListHead.freeHead.injEq, List.mem_cons]
      constructor
      · rintro (⟨hs, hj⟩ | ⟨k, hk, rfl, rfl⟩)
        · exact ⟨.inr hs, hj⟩
        · exact ⟨.inl rfl, hk⟩
      · rintro ⟨rfl | hs, hj⟩
        · exact .inr ⟨j, hj, rfl, rfl⟩
        · exact .inl ⟨hs, hj⟩
  | entry _ => simp [ListHead.IsHeadOf]
  | LIST_POISON1 => simp [ListHead.IsHeadOf]
  | LIST_POISON2 => simp [ListHead.IsHeadOf]
  | NULL => simp [ListHead.IsHeadOf]

/-- The links of one share, up to its area. -/
theorem Begun.links (h : Begun lmas shares H m) (hi : i ∉ shares) (hinj : lmas.Injective) :
    ∃ links₁ links₂ links₃ links₄, initListHead H.links (.lm i) = some links₁ ∧
      (List.range ((1 <<< STRIDE) * 2)).foldlM
        (fun links j => initListHead links (.freeHead i j)) links₁ = some links₂ ∧
      initListHead (McHeap.malloc { H with links := links₂ } (lmas i)).links (.entry (lmas i)) =
        some links₃ ∧
      listAdd links₃ (.entry (lmas i)) (.lm i) = some links₄ ∧
      Family links₄ (headsOf (i :: shares)) (initCells lmas) ∧ ∀ d ∈ mcHeads, links₄.Has d := by
  let cells := Function.update (initCells lmas) (.lm i) []
  have hlm : .lm i ∉ headsOf shares := hi
  have hne : ∀ d ∈ headsOf shares, cells d = initCells lmas d := fun d hd =>
    Function.update_of_ne (fun heq : d = .lm i => hlm (heq ▸ hd)) _ _
  have hcells : ∀ d, ∀ e ∈ cells d, ∃ s ≠ i, d = .lm s ∧ e = .entry (lmas s) := by
    intro d e he
    by_cases hd : d = .lm i
    · rw [hd] at he
      simp [cells] at he
    · rw [show cells d = initCells lmas d from Function.update_of_ne hd _ _] at he
      obtain ⟨s, rfl, rfl⟩ := mem_initCells he
      exact ⟨s, fun heq => hd (heq ▸ rfl), rfl, rfl⟩
  have hnot : ∀ heads d, d ∈ mcHeads → d ∉ heads → d ∉ uses heads cells := by
    rintro heads d hd hd' ⟨e, he, hmem⟩
    rcases List.mem_cons.mp hmem with rfl | hmem
    · exact hd' he
    · obtain ⟨s, -, -, rfl⟩ := hcells e d hmem
      exact hd
  obtain ⟨links₁, hinit₁, hf₁, hsame₁⟩ := initListHead_family (h.family.congr_cells hne)
    (hnot _ _ (lm_mem_mcHeads i) hlm) (h.has _ (lm_mem_mcHeads i)) (Function.update_self _ _ _)
  have hhas₁ : ∀ d ∈ mcHeads, links₁.Has d := by
    intro d hd
    by_cases heq : d = .lm i
    · exact (hf₁.circle _ (.inl heq)).has List.mem_cons_self
    · exact (hsame₁ d heq).has (h.has d hd)
  have hfree : ∀ j, .freeHead i j ∉ uses (insert (.lm i) (headsOf shares)) cells := by
    rintro j ⟨e, he, hmem⟩
    rcases List.mem_cons.mp hmem with rfl | hmem
    · rcases he with he | he
      · cases he
      · exact hi he.1
    · obtain ⟨s, -, -, heq⟩ := hcells e _ hmem
      cases heq
  obtain ⟨links₂, hinit₂, hf₂, hhas₂⟩ := foldlM_initListHead hf₁ hhas₁ hfree fun j => rfl
  rw [headsOf_cons] at hf₂
  have hentry : .entry (lmas i) ∉ uses (headsOf (i :: shares)) cells := by
    rintro ⟨e, he, hmem⟩
    rcases List.mem_cons.mp hmem with rfl | hmem
    · exact he
    · obtain ⟨s, hs, -, heq⟩ := hcells e _ hmem
      exact hs (hinj (ListHead.entry.inj heq)).symm
  obtain ⟨links₃, hinit₃, hf₃, hhas₃, hsame₃⟩ :=
    exists_initEntry (H := { H with links := links₂ }) hf₂ hentry
  have hmem : ListHead.lm i ∈ headsOf (i :: shares) := List.mem_cons_self
  obtain ⟨links₄, hadd, hf₄⟩ := listAdd_spec hf₃ hmem hentry hhas₃
  refine ⟨links₁, links₂, links₃, links₄, hinit₁, hinit₂, hinit₃, hadd, ?_, fun d hd => ?_⟩
  · have hcells₄ : Function.update cells (.lm i) (.entry (lmas i) :: cells (.lm i)) =
        initCells lmas := by
      simp only [cells, Function.update_self, Function.update_idem]
      exact Function.update_eq_self _ _
    rwa [hcells₄] at hf₄
  · have hne : d ≠ .entry (lmas i) := fun heq => entry_notMem_mcHeads _ (heq ▸ hd)
    have hhas : links₃.Has d := (hsame₃ d hne).has (hhas₂ d hd)
    have hc := hf₃.circle _ hmem
    by_cases heq : d = .lm i
    · exact heq ▸ (hf₄.circle _ hmem).has List.mem_cons_self
    · refine (listAdd_same hc (fun hm => hentry ⟨_, hmem, hm⟩) hhas₃ hadd ?_ hne).has hhas
      simpa [cells] using heq

/-- **One round of the loop.** -/
theorem Begun.share (h : Begun lmas shares H m) (hi : i ∉ shares) (hinj : lmas.Injective)
    (oldSize nextColor : ℕ) :
    ∃ H', McHeap.mcInitShare lmas (H, oldSize, nextColor) i =
        some (H', (TreeBitmap.mcInitShare (m, oldSize, nextColor) i).2) ∧
      Begun lmas (i :: shares) H' (TreeBitmap.mcInitShare (m, oldSize, nextColor) i).1 := by
  obtain ⟨links₁, links₂, links₃, links₄, hinit₁, hinit₂, hinit₃, hadd, hf, hhas⟩ := h.links hi hinj
  let size := (m.cs i).size
  let color : ℕ × List ℕ :=
    if i = 0 then ((m.pfnbuf 0).toNat % PAGE_COLORS, 0 :: m.pfnReads) else (nextColor, m.pfnReads)
  let H' : McHeap := { H with
    pfnbuf := m.pfnbuf
    cs := Function.update m.cs i ⟨color.1, size⟩
    links := links₄
    areas := Function.update H.areas (lmas i) (some ⟨oldSize, oldSize, size, i⟩)
    pfnReads := color.2 }
  have hlm : ∀ s ∈ shares, s ≠ i := fun s hs heq => hi (heq ▸ hs)
  have hcolor : (if (i : ℕ) = 0 then ((m.pfnbuf 0).toNat % PAGE_COLORS, 0 :: m.pfnReads)
      else (nextColor, m.pfnReads)) = color :=
    ite_congr (propext (Fin.ext_iff (a := i) (b := 0)).symm) (fun _ => rfl) fun _ => rfl
  refine ⟨H', ?_, rfl, rfl, h.lma, rfl, h.freeNode, hf, hhas, fun s hs => ?_, fun p hp => ?_,
    h.pointers⟩
  · refine Option.bind_eq_some_iff.mpr ⟨links₁, hinit₁, ?_⟩
    refine Option.bind_eq_some_iff.mpr ⟨links₂, hinit₂, ?_⟩
    refine Option.bind_eq_some_iff.mpr ⟨links₃, hinit₃, ?_⟩
    refine Option.bind_eq_some_iff.mpr ⟨links₄, hadd, ?_⟩
    simp only [McHeap.malloc, h.cs, h.pfnbuf, h.pfnReads, hcolor]
    rfl
  · change (Function.update m.lm i [_] s).map some = [Function.update H.areas (lmas i) _ (lmas s)]
    rcases List.mem_cons.mp hs with rfl | hs
    · rw [Function.update_self, Function.update_self]
      rfl
    · rw [Function.update_of_ne (hlm s hs), Function.update_of_ne (fun heq => hlm s hs (hinj heq))]
      exact h.areas s hs
  · by_cases hpi : p = lmas i
    · exact ⟨i, List.mem_cons_self, hpi⟩
    · replace hp : (Function.update H.areas (lmas i) _ p).isSome := hp
      rw [Function.update_of_ne hpi] at hp
      obtain ⟨s, hs, rfl⟩ := h.area_mem p hp
      exact ⟨s, List.mem_cons_of_mem i hs, rfl⟩

/-- The loop, over the shares that are left. -/
theorem Begun.foldlM (h : Begun lmas shares H m) {is : List (Fin SHARE)}
    (hnodup : (is ++ shares).Nodup) (hinj : lmas.Injective) (st : ℕ × ℕ) :
    ∃ H', is.foldlM (McHeap.mcInitShare lmas) (H, st) =
        some (H', (is.foldl TreeBitmap.mcInitShare (m, st)).2) ∧
      Begun lmas (is.reverse ++ shares) H' (is.foldl TreeBitmap.mcInitShare (m, st)).1 := by
  induction is generalizing shares H m st with
  | nil => exact ⟨H, rfl, h⟩
  | cons i is ih =>
      have hi : i ∉ shares := fun hmem =>
        (List.nodup_cons.mp hnodup).1 (List.mem_append_right is hmem)
      have hnodup' : (is ++ i :: shares).Nodup := List.perm_middle.nodup_iff.mpr hnodup
      obtain ⟨H₁, hrun₁, h₁⟩ := h.share hi hinj st.1 st.2
      obtain ⟨H₂, hrun₂, h₂⟩ := ih h₁ hnodup' (TreeBitmap.mcInitShare (m, st) i).2
      refine ⟨H₂, ?_, ?_⟩
      · rw [List.foldlM_cons]
        exact Option.bind_eq_some_iff.mpr ⟨_, hrun₁, hrun₂⟩
      · rw [List.reverse_cons, List.append_assoc, List.singleton_append]
        exact h₂

end Init

/-! ## Runs -/

section Runs

variable {pfnbuf : ℕ → BitVec 64} {H : McHeap} {m m' : McPriv} {freeNode : Fin SHARE → ℕ → ℕ}
  {live live' : List McBlock} {fuel k : ℕ}

/-- The lists are not longer than the run. -/
structure Short (k : ℕ) (m : McPriv) : Prop where
  lm : ∀ s, (m.lm s).length ≤ k + 1
  freeHead : ∀ s j, (m.freeHead s j).length ≤ k

theorem Short.setFree {s : Fin SHARE} (h : Short k m) (n : ℕ) {ps : List ℕ}
    (hps : ps.length ≤ k + 1) : Short (k + 1) (m.setFree s n ps) := by
  refine ⟨fun t => (h.lm t).trans (Nat.le_succ _), fun t j => ?_⟩
  by_cases hts : t = s
  · subst hts
    by_cases hj : j = n
    · simpa [McPriv.setFree, hj] using hps
    · simpa [McPriv.setFree, hj] using (h.freeHead t j).trans (Nat.le_succ k)
  · simpa [McPriv.setFree, hts] using (h.freeHead t j).trans (Nat.le_succ k)

theorem Short.setLma {s : Fin SHARE} (h : Short k m) (i : ℕ) (a : LmArea) :
    Short k (m.setLma s i a) := by
  refine ⟨fun t => ?_, h.freeHead⟩
  by_cases hts : t = s
  · subst hts
    simpa [McPriv.setLma] using h.lm t
  · simpa [McPriv.setLma, hts] using h.lm t

/-- A call makes a list longer by one at most. -/
theorem StepCase.short {op : McCall} (hcase : StepCase m live op m' live') (h : Short k m) :
    Short (k + 1) m' := by
  have hsucc : Short (k + 1) m :=
    ⟨fun s => (h.lm s).trans (Nat.le_succ _), fun s j => (h.freeHead s j).trans (Nat.le_succ k)⟩
  cases hcase with
  | dealloc _ => exact h.setFree _ (Nat.succ_le_succ (h.freeHead _ _))
  | @alloc n level malloc ret m' _ _ hcase =>
      cases hcase with
      | @recycled p ps hfree =>
          have hlen := h.freeHead (shareOf level) n
          rw [hfree, List.length_cons] at hlen
          exact h.setFree _ (by omega)
      | carved _ _ _ => exact hsucc.setLma _ _
      | @grown m₁ last a _ _ _ _ hm₁ _ =>
          refine Short.setLma ⟨fun t => ?_, hm₁ ▸ hsucc.freeHead⟩ _ _
          rw [hm₁]
          by_cases ht : t = shareOf level
          · subst ht
            simpa [TreeBitmap.lmaInit] using h.lm (shareOf level)
          · simpa [TreeBitmap.lmaInit, ht] using hsucc.lm t
      | refused _ _ _ => exact hsucc

/-- What is kept in a run of `k` calls. -/
structure Following (pfnbuf : ℕ → BitVec 64) (k : ℕ) (H : McHeap) (live : List McBlock)
    (m : McPriv) (freeNode : Fin SHARE → ℕ → ℕ) : Prop where
  represents : Represents H m freeNode
  areas : Areas pfnbuf m
  sized : Sized live
  short : Short k m

/-- **One call**: it faults on both sides, or on none. -/
theorem Following.step (h : Following pfnbuf k H live m freeNode) (hfuel : k + 1 < fuel) {op : McOp}
    (hlegal : McHeap.mcLegal (H, live) op) :
    (McHeap.mcStep fuel (H, live) op = none ∧ listStep ((m, live), freeNode) op = none) ∨
      ∃ H' live' m' freeNode', McHeap.mcStep fuel (H, live) op = some (H', live') ∧
        listStep ((m, live), freeNode) op = some ((m', live'), freeNode') ∧
        Following pfnbuf (k + 1) H' live' m' freeNode' := by
  obtain ⟨hrep, hm, hlive, hshort⟩ := h
  cases op with
  | alloc n level malloc =>
      obtain ⟨⟨hpos, hn⟩, hfresh⟩ := hlegal
      have hlen : (m.lm (shareOf level)).length < fuel := (hshort.lm _).trans_lt hfuel
      obtain ⟨ret, H', m', halloc, halloc', hrep'⟩ :=
        hrep.mcAllocNode hlen (hm.ne_nil _) hpos hn hfresh
      obtain ⟨ret₁, m₁, halloc₁, hcase⟩ := mcAllocNode_spec hm hpos hn level malloc.isSome
      obtain ⟨rfl, rfl⟩ : ret = ret₁ ∧ m' = m₁ := by
        rw [halloc] at halloc₁
        cases halloc₁
        exact ⟨rfl, rfl⟩
      have hstep : StepCase m live (.alloc n level malloc.isSome) m' _ := .alloc hpos hn hcase
      refine .inr ⟨H', _, m', freeNode, ?_, ?_, hrep', hstep.areas hm, hstep.sized hlive,
        hstep.short hshort⟩
      · simp only [McHeap.mcStep, halloc', Option.bind_eq_bind, Option.bind_some]
        cases ret <;> rfl
      · simp only [listStep, TreeBitmap.mcStep, halloc, Option.bind_eq_bind, Option.bind_some]
        cases ret <;> rfl
  | dealloc b malloc =>
      obtain ⟨hb, hfresh⟩ := hlegal
      cases malloc with
      | none => exact .inl ⟨rfl, rfl⟩
      | some fp =>
          obtain ⟨H', hdealloc, hrep'⟩ :=
            hrep.mcDeallocNode (hlive b hb).2 b.level b.p (hfresh fp rfl)
          have hstep : StepCase m live (.dealloc b true) _ _ := .dealloc hb
          refine .inr ⟨H', _, _, freeNode, ?_, ?_, hrep', hstep.areas hm, hstep.sized hlive,
            hstep.short hshort⟩
          · simp only [McHeap.mcStep, hdealloc, Option.bind_eq_bind, Option.bind_some]
          · simp only [listStep, TreeBitmap.mcStep, Option.isSome_some,
              mcDeallocNode_eq (hlive b hb).2, Option.bind_eq_bind, Option.bind_some]
  | profile =>
      have hlen : ∀ i j, (m.freeHead i j).length < fuel := fun i j =>
        (hshort.freeHead i j).trans_lt (by omega)
      obtain ⟨H', hprofile, hrep'⟩ := hrep.mcProfile hlen
      refine .inr ⟨H', live, m, _, ?_, rfl, hrep', hm, hlive, ?_⟩
      · simp only [McHeap.mcStep, hprofile, Option.bind_eq_bind, Option.bind_some]
      · exact ⟨fun s => (hshort.lm s).trans (Nat.le_succ _),
          fun s j => (hshort.freeHead s j).trans (Nat.le_succ k)⟩

theorem Following.run (h : Following pfnbuf k H live m freeNode) {ops : List McOp}
    (hfuel : k + ops.length + 1 < fuel)
    (hops : Run.Guarded (McHeap.mcStep fuel) McHeap.mcLegal (H, live) ops) :
    Option.Rel (fun st st' => st.2 = st'.1.2 ∧ Represents st.1 st'.1.1 st'.2)
      (ops.foldlM (McHeap.mcStep fuel) (H, live)) (ops.foldlM listStep ((m, live), freeNode)) := by
  induction ops generalizing k H live m freeNode with
  | nil => exact .some ⟨rfl, h.represents⟩
  | cons op ops ih =>
      rw [List.length_cons] at hfuel
      have hfuel' : k + 1 < fuel := by omega
      rcases h.step hfuel' hops.1 with
        ⟨hfault, hfault'⟩ | ⟨H₁, live₁, m₁, freeNode₁, hstep, hstep', h₁⟩
      · rw [List.foldlM_cons, List.foldlM_cons, hfault, hfault']
        exact .none
      · rw [List.foldlM_cons, List.foldlM_cons, hstep, hstep']
        exact ih h₁ (by omega) (hops.2 _ hstep)

end Runs

end TreeBitmap
