import TreeBitmap.ListHead
import TreeBitmap.Mm
import TreeBitmap.Lib.Run

/-!
# The allocators and their managers (`lib/mm.c`)

An allocator is a static `struct mem_op`.  `ADD_ALLOCATOR` registers it when the program starts,
and `mm_init` installs the one of the type it is asked for.  The private data of an allocator is
behind `op->priv`, in the `struct mem_op` itself: `mm_init` allocates it for a manager, but all
managers of the allocator find it there.

A `struct mem_op` is known by its address, and so is a `struct mm`.  What `calloc` returns, and
what the functions `init` and `uinit` of the allocator return, is told with each call.  `none` is
a failed assertion, or an access to what is not allocated.

## Main definitions

* `MemOpFields` — the part of `struct mem_op` that is read here; `simpleFields`, `colorFields`.
* `Registry` — the list of allocators, `op->priv`, and the managers.
* `findAllocator`, `addAllocator`, `Registry.mmInit`, `Registry.mmUinit` — the functions.
* `Registry.legal` — the contract: what is asked for, and what `calloc` returns.
* `registry_run` — **each manager has private data of its own**, if no two managers of an
  allocator with private data are in use together.
* `registry_run_shared` — if two are, the private data is freed twice.
-/

namespace TreeBitmap

open Ring

/-- Where a `struct list_head` of `mm.c` is. -/
inductive AllocLink
  /-- The head of the list, `allocators`. -/
  | allocators
  /-- The member `list` of the `struct allocator` at an address. -/
  | entry (p : ℕ)
  | NULL
  deriving DecidableEq

/-- `list_entry`. -/
def allocEntry : AllocLink → Option ℕ
  | .entry p => some p
  | _ => none

/-- `struct mem_op`.  The functions `init` and `uinit` are there, or `NULL`. -/
structure MemOpFields where
  type : ℤ
  privSize : ℕ
  init : Bool
  uinit : Bool

def MEM_ALLOC_SIMPLE : ℤ := 0

def MEM_ALLOC_COLOR : ℤ := 1

/-- `simple`. -/
def simpleFields : MemOpFields := ⟨MEM_ALLOC_SIMPLE, 0, false, false⟩

/-- `color`, with `sizeof(struct mc_priv)`. -/
def colorFields : MemOpFields := ⟨MEM_ALLOC_COLOR, 7784, true, true⟩

/-- The state of `mm.c`, and the managers. -/
structure Registry where
  links : Heap AllocLink
  /-- `alloc->op` of the `struct allocator` at an address. -/
  allocs : ℕ → Option ℕ
  /-- `op->priv`. -/
  priv : ℕ → Option ℕ
  /-- The blocks of private data. -/
  blocks : ℕ → Bool
  /-- `m->ms` and `m->op`. -/
  mms : ℕ → Option (MemStat × ℕ)

namespace Registry

/-- `LIST_HEAD(allocators)`. -/
def start : Registry where
  links :=
    let self : AllocLink → Option AllocLink
      | .allocators => some .allocators
      | _ => none
    ⟨self, self⟩
  allocs _ := none
  priv _ := none
  blocks _ := false
  mms _ := none

section Functions

variable (ops : ℕ → MemOpFields)

/-- The body of the loop of `find_allocator`. -/
def findBody (R : Registry) (type : ℤ) (found : Option ℕ) (pos : AllocLink) :
    Option (Option ℕ × Bool) := do
  let alloc ← allocEntry pos
  let op ← R.allocs alloc
  if (ops op).type = type then some (some op, true) else some (found, false)

/-- `find_allocator`. -/
def findAllocator (fuel : ℕ) (R : Registry) (type : ℤ) : Option (Option ℕ) := do
  let first ← R.links.next .allocators
  forEach R.links .allocators (findBody ops R type) fuel first none

/-- `add_allocator`. -/
def addAllocator (fuel : ℕ) (R : Registry) (op : ℕ) (calloc : Option ℕ) :
    Option (ℤ × Registry) := do
  let find ← findAllocator ops fuel R (ops op).type
  match find with
  | some _ => some (-1, R)
  | none =>
      match calloc with
      | none => some (-1, R)
      | some alloc => do
          let links ← initListHead (R.links.alloc (.entry alloc) .NULL .NULL) (.entry alloc)
          let links ← listAddTail links (.entry alloc) .allocators
          some (0, { R with
            links := links
            allocs := Function.update R.allocs alloc (some op) })

/-- `mm_init` on the manager at `m`; `ret` is what `op->init` returns.  That function writes to
the private data at once. -/
def mmInit (fuel : ℕ) (R : Registry) (m : ℕ) (type : ℤ) (calloc : Option ℕ) (ret : ℤ) :
    Option (ℤ × Registry) := do
  let find ← findAllocator ops fuel R type
  let op ← find
  let R := { R with mms := Function.update R.mms m (some (.zero, op)) }
  if (ops op).init then do
    let p ← calloc
    some (ret, { R with
      priv := Function.update R.priv op (some p)
      blocks := Function.update R.blocks p true })
  else some (0, R)

/-- `mm_get_priv`. -/
def mmGetPriv (R : Registry) (m : ℕ) : Option ℕ := do
  let (_, op) ← R.mms m
  R.priv op

/-- `mm_uinit`; `ret` is what `op->uinit` returns.  That function reads the private data. -/
def mmUinit (R : Registry) (m : ℕ) (ret : ℤ) : Option (ℤ × Registry) := do
  let (_, op) ← R.mms m
  if (ops op).uinit then do
    let p ← R.mmGetPriv m
    guard (R.blocks p)
  let R ←
    if (ops op).privSize ≠ 0 then
      match R.priv op with
      | none => some R
      | some p => do
          guard (R.blocks p)
          some { R with blocks := Function.update R.blocks p false }
    else some R
  some (if (ops op).uinit then ret else 0, R)

end Functions

end Registry

/-! ## The list of allocators -/

section Registry

variable {ops : ℕ → MemOpFields} {R : Registry} {regs : List ℕ} {fuel m op p : ℕ} {type : ℤ}

/-- The allocator that a node of the list stands for. -/
def Registry.opAt (R : Registry) (d : AllocLink) : Option ℕ := (allocEntry d).bind R.allocs

/-- The allocators that are registered, first one first. -/
structure Listed (ops : ℕ → MemOpFields) (R : Registry) (regs : List ℕ) : Prop where
  cells : ∃ cells, Circle R.links .allocators cells ∧ cells.map R.opAt = regs.map some ∧
    ∀ p, (R.allocs p).isSome → .entry p ∈ cells
  /-- There is one of each type. -/
  types : (regs.map fun op => (ops op).type).Nodup

theorem listed_start : Listed ops .start [] := by
  refine ⟨⟨[], ⟨List.nodup_singleton _, ?_⟩, rfl, fun p hp => by cases hp⟩, List.nodup_nil⟩
  exact List.isChain_cons_cons.mpr ⟨⟨rfl, rfl⟩, .singleton _⟩

/-- Only the list counts. -/
theorem Listed.congr (h : Listed ops R regs) {R' : Registry} (hlinks : R'.links = R.links)
    (hallocs : R'.allocs = R.allocs) : Listed ops R' regs := by
  refine ⟨?_, h.types⟩
  obtain ⟨cells, hc, hmap, hmem⟩ := h.cells
  have hat : R'.opAt = R.opAt := by
    funext d
    rw [Registry.opAt, Registry.opAt, hallocs]
  exact ⟨cells, hlinks ▸ hc, hat ▸ hmap, hallocs ▸ hmem⟩

/-- What the loop of `find_allocator` does with an allocator. -/
def findOp (ops : ℕ → MemOpFields) (type : ℤ) (found : Option ℕ) (op : ℕ) :
    Option (Option ℕ × Bool) :=
  if (ops op).type = type then some (some op, true) else some (found, false)

/-- The loop stops at the first allocator of the type. -/
theorem forList_findOp (ops : ℕ → MemOpFields) (type : ℤ) (regs : List ℕ) :
    forList (findOp ops type) regs none = some (regs.find? fun op => (ops op).type = type) := by
  induction regs with
  | nil => rfl
  | cons op regs ih =>
      rw [forList, List.find?_cons, findOp]
      by_cases htype : (ops op).type = type
      · simp [htype]
      · simpa [htype] using ih

/-- **`find_allocator`** finds the allocator of the type. -/
theorem Listed.findAllocator (h : Listed ops R regs) (hfuel : regs.length < fuel) (type : ℤ) :
    R.findAllocator ops fuel type = some (regs.find? fun op => (ops op).type = type) := by
  obtain ⟨cells, hc, hmap, -⟩ := h.cells
  have hlen := congrArg List.length hmap
  rw [List.length_map, List.length_map] at hlen
  have hbody : Registry.findBody ops R type = fun found d =>
      (R.opAt d).bind (findOp ops type found) := by
    funext found d
    exact (Option.bind_assoc _ _ _).symm
  have hloop := hc.forEach_eq (Registry.findBody ops R type) (hlen.symm ▸ hfuel) none
  rw [hbody, forList_bind hmap, forList_findOp] at hloop
  rw [← hloop, ← hbody]
  rfl

/-- **`add_allocator`** puts an allocator at the end of the list, or refuses it and changes
nothing. -/
theorem Listed.addAllocator (h : Listed ops R regs) (hfuel : regs.length < fuel) (op : ℕ)
    {calloc : Option ℕ} (hfresh : ∀ p ∈ calloc, R.allocs p = none) :
    ∃ ret R', R.addAllocator ops fuel op calloc = some (ret, R') ∧ R'.priv = R.priv ∧
      R'.blocks = R.blocks ∧ R'.mms = R.mms ∧
      (ret = -1 ∧ R' = R ∧ ((∃ op' ∈ regs, (ops op').type = (ops op).type) ∨ calloc = none) ∨
        ret = 0 ∧ (∀ op' ∈ regs, (ops op').type ≠ (ops op).type) ∧
          Listed ops R' (regs ++ [op])) := by
  have hfind := h.findAllocator hfuel (ops op).type
  cases hfound : regs.find? fun op' => (ops op').type = (ops op).type with
  | some op' =>
      refine ⟨-1, R, ?_, rfl, rfl, rfl, .inl ⟨rfl, rfl, .inl ⟨op', ?_, ?_⟩⟩⟩
      · simp only [Registry.addAllocator, hfind, hfound, Option.bind_eq_bind, Option.bind_some]
      · exact List.mem_of_find?_eq_some hfound
      · simpa using List.find?_some hfound
  | none =>
      have hnew : ∀ op' ∈ regs, (ops op').type ≠ (ops op).type := by
        intro op' hmem
        simpa using List.find?_eq_none.mp hfound op' hmem
      cases calloc with
      | none =>
          refine ⟨-1, R, ?_, rfl, rfl, rfl, .inl ⟨rfl, rfl, .inr rfl⟩⟩
          simp only [Registry.addAllocator, hfind, hfound, Option.bind_eq_bind, Option.bind_some]
      | some alloc =>
          obtain ⟨cells, hc, hmap, hmem⟩ := h.cells
          have hcell : ∀ d ∈ AllocLink.allocators :: cells, d ≠ .entry alloc := by
            intro d hd heq
            rcases List.mem_cons.mp hd with rfl | hd
            · cases heq
            · have hsome := List.mem_map_of_mem (f := R.opAt) hd
              rw [hmap, heq, Registry.opAt, allocEntry, Option.bind_some, hfresh alloc rfl] at hsome
              simp at hsome
          let heads : Set AllocLink := {.allocators}
          have hf : Family R.links heads fun _ => cells := by
            refine ⟨fun d hd => ?_, fun d hd e he _ _ _ => ?_⟩
            · rw [Set.mem_singleton_iff.mp hd]
              exact hc
            · rw [Set.mem_singleton_iff.mp hd, Set.mem_singleton_iff.mp he]
          have hnot : AllocLink.entry alloc ∉ uses heads fun _ => cells := by
            rintro ⟨d, hd, hd'⟩
            rw [Set.mem_singleton_iff.mp hd] at hd'
            exact hcell _ hd' rfl
          obtain ⟨links, hinit, hf', hhas, -⟩ := initListHead_alloc hf hnot .NULL .NULL
          obtain ⟨links', hadd, hf''⟩ := listAddTail_spec hf' (Set.mem_singleton _) hnot hhas
          refine ⟨0, { R with
            links := links'
            allocs := Function.update R.allocs alloc (some op) }, ?_, rfl, rfl, rfl,
            .inr ⟨rfl, hnew, ⟨cells ++ [.entry alloc], ?_, ?_, fun p hp => ?_⟩, ?_⟩⟩
          · simp only [Registry.addAllocator, hfind, hfound, hinit, hadd, Option.bind_eq_bind,
              Option.bind_some]
          · simpa using hf''.circle .allocators (Set.mem_singleton _)
          · rw [List.map_append, List.map_append, ← hmap]
            refine congrArg₂ (· ++ ·) (List.map_congr_left fun d hd => ?_) ?_
            · cases d with
              | entry p =>
                  have hne : p ≠ alloc := fun heq =>
                    hcell _ (List.mem_cons_of_mem _ hd) (heq ▸ rfl)
                  exact Function.update_of_ne hne _ _
              | allocators => rfl
              | NULL => rfl
            · simp [Registry.opAt, allocEntry]
          · by_cases hpa : p = alloc
            · exact List.mem_append_right _ (hpa ▸ List.mem_singleton_self _)
            · replace hp : (Function.update R.allocs alloc (some op) p).isSome := hp
              rw [Function.update_of_ne hpa] at hp
              exact List.mem_append_left _ (hmem p hp)
          · rw [List.map_append, List.map_singleton, List.nodup_append]
            refine ⟨h.types, List.nodup_singleton _, ?_⟩
            rintro t ht t' ht' rfl
            obtain ⟨op', hop', rfl⟩ := List.mem_map.mp ht
            exact hnew op' hop' (List.mem_singleton.mp ht')

/-! ## The managers -/

/-- There is nothing at the address. -/
def Registry.Fresh (R : Registry) (p : ℕ) : Prop := R.allocs p = none ∧ R.blocks p = false

/-- **Every manager in use has private data of its own**, if its allocator has any, and there is
no other. -/
structure Owned (ops : ℕ → MemOpFields) (R : Registry) (alive : Finset ℕ) : Prop where
  installed : ∀ m ∈ alive, (R.mms m).isSome
  has : ∀ m ∈ alive, ∀ ms op, R.mms m = some (ms, op) → (ops op).init →
    ∃ p, R.mmGetPriv m = some p ∧ R.blocks p
  without : ∀ op, (ops op).init = false → R.priv op = none
  owner : ∀ p, R.blocks p → ∃ m ∈ alive, R.mmGetPriv m = some p
  unique : ∀ m ∈ alive, ∀ m' ∈ alive, ∀ p,
    R.mmGetPriv m = some p → R.mmGetPriv m' = some p → m = m'

/-- Only an allocator with an `init` has private data, and only such has an `uinit`. -/
def Consistent (ops : ℕ → MemOpFields) : Prop :=
  ∀ op, ((ops op).init = true ↔ (ops op).privSize ≠ 0) ∧
    ((ops op).uinit = true → (ops op).init = true)

theorem owned_start : Owned ops .start ∅ where
  installed := by simp
  has := by simp
  without := fun _ _ => rfl
  owner := fun p hp => by cases hp
  unique := by simp

/-- Only the managers and their data count. -/
theorem Owned.congr {alive : Finset ℕ} (h : Owned ops R alive) {R' : Registry}
    (hpriv : R'.priv = R.priv) (hblocks : R'.blocks = R.blocks) (hmms : R'.mms = R.mms) :
    Owned ops R' alive := by
  obtain ⟨links, allocs, priv, blocks, mms⟩ := R
  obtain ⟨links', allocs', priv', blocks', mms'⟩ := R'
  cases hpriv
  cases hblocks
  cases hmms
  exact ⟨h.installed, h.has, h.without, h.owner, h.unique⟩

theorem mmGetPriv_eq {ms : MemStat} (hm : R.mms m = some (ms, op)) : R.mmGetPriv m = R.priv op := by
  rw [Registry.mmGetPriv, hm]
  rfl

/-- `mm_uinit` frees what it finds behind `op->priv`. -/
theorem mmUinit_eq {ms : MemStat} (hm : R.mms m = some (ms, op)) (hpriv : R.priv op = some p)
    (hblock : R.blocks p = true) (hsize : (ops op).privSize ≠ 0) (ret : ℤ) :
    R.mmUinit ops m ret = some (if (ops op).uinit then ret else 0,
      { R with blocks := Function.update R.blocks p false }) := by
  have hguard : guard (f := Option) (R.blocks p = true) = some () := if_pos hblock
  simp only [Registry.mmUinit, hm, mmGetPriv_eq hm, hpriv, if_pos hsize, hguard,
    Option.bind_eq_bind, Option.bind_some]
  split_ifs <;> rfl

/-- What has been freed is not freed again. -/
theorem mmUinit_eq_none {ms : MemStat} (hm : R.mms m = some (ms, op)) (hpriv : R.priv op = some p)
    (hblock : R.blocks p = false) (hsize : (ops op).privSize ≠ 0) (ret : ℤ) :
    R.mmUinit ops m ret = none := by
  have hguard : guard (f := Option) (R.blocks p = true) = none :=
    if_neg fun htrue => Bool.false_ne_true (hblock.symm.trans htrue)
  simp only [Registry.mmUinit, hm, mmGetPriv_eq hm, hpriv, if_pos hsize, hguard,
    Option.bind_eq_bind, Option.bind_some, Option.bind_none]
  split_ifs <;> rfl

/-- The manager that `mm_init` makes. -/
def Registry.installed (R : Registry) (m op : ℕ) : Registry :=
  { R with mms := Function.update R.mms m (some (.zero, op)) }

/-- The manager, with the private data that `mm_init` has made for it. -/
def Registry.provided (R : Registry) (m op p : ℕ) : Registry :=
  { R.installed m op with
    priv := Function.update R.priv op (some p)
    blocks := Function.update R.blocks p true }

/-- **`mm_init`.** -/
theorem Listed.mmInit (h : Listed ops R regs) (hfuel : regs.length < fuel)
    (hfind : regs.find? (fun op => (ops op).type = type) = some op) (m : ℕ) (calloc : Option ℕ)
    (ret : ℤ) :
    R.mmInit ops fuel m type calloc ret =
      if (ops op).init then calloc.map fun p => (ret, R.provided m op p)
      else some (0, R.installed m op) := by
  simp only [Registry.mmInit, h.findAllocator hfuel type, hfind, Option.bind_eq_bind,
    Option.bind_some]
  split_ifs
  · cases calloc <;> rfl
  · rfl

section Owned

variable {alive : Finset ℕ}

theorem mmGetPriv_update {x : MemStat × ℕ} {m' : ℕ} (hne : m' ≠ m) :
    Registry.mmGetPriv { R with mms := Function.update R.mms m (some x) } m' = R.mmGetPriv m' := by
  simp only [Registry.mmGetPriv, Function.update_of_ne hne]

/-- A manager without private data. -/
theorem Owned.install (h : Owned ops R alive) (hm : m ∉ alive) (hinit : (ops op).init = false) :
    Owned ops (R.installed m op) (insert m alive) := by
  have hne : ∀ m' ∈ alive, m' ≠ m := fun m' hmem heq => hm (heq ▸ hmem)
  have hold : ∀ m' ∈ alive, (R.installed m op).mmGetPriv m' = R.mmGetPriv m' := fun m' hmem =>
    mmGetPriv_update (hne m' hmem)
  have hself : (R.installed m op).mms m = some (.zero, op) := Function.update_self _ _ _
  have hnew : (R.installed m op).mmGetPriv m = none :=
    (mmGetPriv_eq hself).trans (h.without op hinit)
  refine ⟨fun m' hmem => ?_, fun m' hmem ms op' hm' hop' => ?_, h.without, fun p hp => ?_,
    fun m₁ h₁ m₂ h₂ p hp₁ hp₂ => ?_⟩
  · rcases Finset.mem_insert.mp hmem with rfl | hmem
    · rw [hself]
      rfl
    · change (Function.update R.mms m _ m').isSome
      rw [Function.update_of_ne (hne m' hmem)]
      exact h.installed m' hmem
  · rcases Finset.mem_insert.mp hmem with rfl | hmem
    · rw [hself] at hm'
      cases hm'
      rw [hinit] at hop'
      cases hop'
    · rw [hold m' hmem]
      refine h.has m' hmem ms op' ?_ hop'
      rwa [← Function.update_of_ne (hne m' hmem) (some (MemStat.zero, op)) R.mms]
  · obtain ⟨m', hmem, hpriv⟩ := h.owner p hp
    exact ⟨m', Finset.mem_insert_of_mem hmem, (hold m' hmem).trans hpriv⟩
  · rcases Finset.mem_insert.mp h₁ with rfl | h₁
    · rw [hnew] at hp₁
      cases hp₁
    rcases Finset.mem_insert.mp h₂ with rfl | h₂
    · rw [hnew] at hp₂
      cases hp₂
    exact h.unique m₁ h₁ m₂ h₂ p (hold m₁ h₁ ▸ hp₁) (hold m₂ h₂ ▸ hp₂)

/-- The private data of a manager in use has not been freed. -/
theorem Owned.blocks_eq (h : Owned ops R alive) (hm : m ∈ alive) (hp : R.mmGetPriv m = some p) :
    R.blocks p = true := by
  obtain ⟨⟨ms, op⟩, hms⟩ := Option.isSome_iff_exists.mp (h.installed m hm)
  have hop : (ops op).init = true := by
    by_contra hop
    rw [mmGetPriv_eq hms, h.without op (Bool.eq_false_iff.mpr hop)] at hp
    cases hp
  obtain ⟨q, hq, hblock⟩ := h.has m hm ms op hms hop
  rw [hp] at hq
  cases hq
  exact hblock

/-- A manager with private data, when no other manager of its allocator is in use. -/
theorem Owned.provide (h : Owned ops R alive) (hm : m ∉ alive) (hinit : (ops op).init = true)
    (halone : ∀ m' ∈ alive, ∀ ms, R.mms m' ≠ some (ms, op)) (hp : R.blocks p = false) :
    Owned ops (R.provided m op p) (insert m alive) := by
  have hne : ∀ m' ∈ alive, m' ≠ m := fun m' hmem heq => hm (heq ▸ hmem)
  have hmms : ∀ m' ∈ alive, (R.provided m op p).mms m' = R.mms m' := fun m' hmem =>
    Function.update_of_ne (hne m' hmem) _ _
  have hold : ∀ m' ∈ alive, (R.provided m op p).mmGetPriv m' = R.mmGetPriv m' := by
    intro m' hmem
    obtain ⟨⟨ms, op'⟩, hm'⟩ := Option.isSome_iff_exists.mp (h.installed m' hmem)
    have hop : op' ≠ op := fun heq => halone m' hmem ms (heq ▸ hm')
    rw [mmGetPriv_eq hm', mmGetPriv_eq ((hmms m' hmem).trans hm')]
    exact Function.update_of_ne hop _ _
  have hself : (R.provided m op p).mms m = some (.zero, op) := Function.update_self _ _ _
  have hnew : (R.provided m op p).mmGetPriv m = some p :=
    (mmGetPriv_eq hself).trans (Function.update_self _ _ _)
  have hother : ∀ m' ∈ alive, R.mmGetPriv m' ≠ some p := fun m' hmem heq =>
    Bool.false_ne_true (hp.symm.trans (h.blocks_eq hmem heq))
  refine ⟨fun m' hmem => ?_, fun m' hmem ms op' hm' hop' => ?_, fun op' hop' => ?_, fun q hq => ?_,
    fun m₁ h₁ m₂ h₂ q hq₁ hq₂ => ?_⟩
  · rcases Finset.mem_insert.mp hmem with rfl | hmem
    · rw [hself]
      rfl
    · rw [hmms m' hmem]
      exact h.installed m' hmem
  · rcases Finset.mem_insert.mp hmem with rfl | hmem
    · exact ⟨p, hnew, Function.update_self _ _ _⟩
    · rw [hmms m' hmem] at hm'
      obtain ⟨q, hq, hblock⟩ := h.has m' hmem ms op' hm' hop'
      refine ⟨q, (hold m' hmem).trans hq, ?_⟩
      have hqp : q ≠ p := fun heq => hother m' hmem (heq ▸ hq)
      exact (Function.update_of_ne hqp _ _).trans hblock
  · have hne' : op' ≠ op := by
      rintro rfl
      rw [hinit] at hop'
      cases hop'
    exact (Function.update_of_ne hne' _ _).trans (h.without op' hop')
  · by_cases hqp : q = p
    · exact ⟨m, Finset.mem_insert_self m alive, hqp ▸ hnew⟩
    · replace hq : Function.update R.blocks p true q = true := hq
      rw [Function.update_of_ne hqp] at hq
      obtain ⟨m', hmem, hpriv⟩ := h.owner q hq
      exact ⟨m', Finset.mem_insert_of_mem hmem, (hold m' hmem).trans hpriv⟩
  · have hcase : ∀ m' ∈ insert m alive, (R.provided m op p).mmGetPriv m' = some q →
        (m' = m ∧ q = p) ∨ (m' ∈ alive ∧ R.mmGetPriv m' = some q ∧ q ≠ p) := by
      intro m' hmem hq
      rcases Finset.mem_insert.mp hmem with rfl | hmem
      · rw [hnew] at hq
        exact .inl ⟨rfl, (Option.some.inj hq).symm⟩
      · rw [hold m' hmem] at hq
        exact .inr ⟨hmem, hq, fun heq => hother m' hmem (heq ▸ hq)⟩
    rcases hcase m₁ h₁ hq₁ with ⟨rfl, hqp⟩ | ⟨hmem₁, hq₁', hqp⟩ <;>
      rcases hcase m₂ h₂ hq₂ with ⟨rfl, hqp'⟩ | ⟨hmem₂, hq₂', hqp'⟩
    · rfl
    · exact absurd hqp hqp'
    · exact absurd hqp' hqp
    · exact h.unique m₁ hmem₁ m₂ hmem₂ q hq₁' hq₂'

/-- **`mm_uinit`** frees the private data of the manager, and of no other. -/
theorem Owned.mmUinit (h : Owned ops R alive) (hops : Consistent ops) (hm : m ∈ alive) (ret : ℤ) :
    ∃ ret' R', R.mmUinit ops m ret = some (ret', R') ∧ R'.links = R.links ∧ R'.allocs = R.allocs ∧
      Owned ops R' (alive.erase m) := by
  obtain ⟨⟨ms, op⟩, hms⟩ := Option.isSome_iff_exists.mp (h.installed m hm)
  have hpriv := mmGetPriv_eq hms
  obtain ⟨hinit_iff, huinit⟩ := hops op
  by_cases hinit : (ops op).init = true
  · obtain ⟨p, hp, hblock⟩ := h.has m hm ms op hms hinit
    refine ⟨_, _, mmUinit_eq hms (hpriv ▸ hp) hblock (hinit_iff.mp hinit) ret, rfl, rfl, ?_⟩
    · refine ⟨fun m' hmem => h.installed m' (Finset.mem_of_mem_erase hmem),
        fun m' hmem ms' op' hm' hop' => ?_, h.without, fun q hq => ?_,
        fun m₁ h₁ m₂ h₂ => h.unique m₁ (Finset.mem_of_mem_erase h₁) m₂ (Finset.mem_of_mem_erase h₂)⟩
      · obtain ⟨q, hq, hblock'⟩ := h.has m' (Finset.mem_of_mem_erase hmem) ms' op' hm' hop'
        have hqp : q ≠ p := by
          rintro rfl
          exact Finset.ne_of_mem_erase hmem
            (h.unique m' (Finset.mem_of_mem_erase hmem) m hm q hq hp)
        exact ⟨q, hq, (Function.update_of_ne hqp _ _).trans hblock'⟩
      · have hqp : q ≠ p := by
          rintro rfl
          replace hq : Function.update R.blocks q false q = true := hq
          rw [Function.update_self] at hq
          cases hq
        replace hq : Function.update R.blocks p false q = true := hq
        rw [Function.update_of_ne hqp] at hq
        obtain ⟨m', hmem, hq'⟩ := h.owner q hq
        refine ⟨m', Finset.mem_erase.mpr ⟨?_, hmem⟩, hq'⟩
        rintro rfl
        rw [hp] at hq'
        exact hqp (Option.some.inj hq').symm
  · have hsize : ¬ (ops op).privSize ≠ 0 := fun hne => hinit (hinit_iff.mpr hne)
    have hno : ¬ (ops op).uinit = true := fun hu => hinit (huinit hu)
    have hnone : R.mmGetPriv m = none := hpriv.trans (h.without op (Bool.eq_false_iff.mpr hinit))
    refine ⟨0, R, ?_, rfl, rfl, ?_⟩
    · simp only [Registry.mmUinit, hms, if_neg hno, if_neg hsize, Option.bind_eq_bind,
        Option.bind_some]
    · refine ⟨fun m' hmem => h.installed m' (Finset.mem_of_mem_erase hmem),
        fun m' hmem => h.has m' (Finset.mem_of_mem_erase hmem), h.without, fun q hq => ?_,
        fun m₁ h₁ m₂ h₂ => h.unique m₁ (Finset.mem_of_mem_erase h₁) m₂ (Finset.mem_of_mem_erase h₂)⟩
      obtain ⟨m', hmem, hq'⟩ := h.owner q hq
      refine ⟨m', Finset.mem_erase.mpr ⟨?_, hmem⟩, hq'⟩
      rintro rfl
      rw [hnone] at hq'
      cases hq'

end Owned

/-! ## Programs -/

/-- A call, with what `calloc`, and the function of the allocator, return in it. -/
inductive RegistryOp
  | addAllocator (op : ℕ) (calloc : Option ℕ)
  | mmInit (m : ℕ) (type : ℤ) (calloc : Option ℕ) (ret : ℤ)
  | mmUinit (m : ℕ) (ret : ℤ)

/-- A call, with the managers that are in use before and after. -/
def Registry.step (ops : ℕ → MemOpFields) (fuel : ℕ) :
    Registry × Finset ℕ → RegistryOp → Option (Registry × Finset ℕ)
  | (R, alive), .addAllocator op calloc => do
      let (_, R) ← R.addAllocator ops fuel op calloc
      some (R, alive)
  | (R, alive), .mmInit m type calloc ret => do
      let (_, R) ← R.mmInit ops fuel m type calloc ret
      some (R, insert m alive)
  | (R, alive), .mmUinit m ret => do
      let (_, R) ← R.mmUinit ops m ret
      some (R, alive.erase m)

/-- The allocator is registered, and of the type. -/
def Registry.Has (ops : ℕ → MemOpFields) (R : Registry) (type : ℤ) (op : ℕ) : Prop :=
  (ops op).type = type ∧ ∃ alloc, R.allocs alloc = some op

/-- What the program keeps to.  What `calloc` returns is not in use.  A manager that is made is not
in use, and gets an allocator that is registered, which `mm_init` asserts; if the allocator has
private data, no other manager of it is in use, and `calloc` succeeds.  A manager that is given up
is in use. -/
def Registry.legal (ops : ℕ → MemOpFields) : Registry × Finset ℕ → RegistryOp → Prop
  | (R, _), .addAllocator _ calloc => ∀ p ∈ calloc, R.Fresh p
  | (R, alive), .mmInit m type calloc _ => m ∉ alive ∧ ∃ op, R.Has ops type op ∧
      ((ops op).init = true →
        (∀ m' ∈ alive, ∀ ms, R.mms m' ≠ some (ms, op)) ∧ ∃ p ∈ calloc, R.Fresh p)
  | (_, alive), .mmUinit m _ => m ∈ alive

/-- A registered allocator is the one that is found. -/
theorem Listed.find?_eq (h : Listed ops R regs) (hhas : R.Has ops type op) :
    regs.find? (fun op => (ops op).type = type) = some op := by
  obtain ⟨htype, alloc, halloc⟩ := hhas
  obtain ⟨cells, -, hmap, hmem⟩ := h.cells
  have hop : some op ∈ regs.map some := by
    rw [← hmap, ← halloc]
    exact List.mem_map_of_mem (f := R.opAt) (hmem alloc (by rw [halloc]; rfl))
  obtain ⟨op', hreg, heq⟩ := List.mem_map.mp hop
  cases heq
  have hsome : (regs.find? fun op => (ops op).type = type).isSome := by
    rw [List.find?_isSome]
    exact ⟨op, hreg, by simpa using htype⟩
  obtain ⟨op', hfound⟩ := Option.isSome_iff_exists.mp hsome
  have htype' : (ops op').type = type := by simpa using List.find?_some hfound
  rw [hfound, List.inj_on_of_nodup_map h.types (List.mem_of_find?_eq_some hfound) hreg
    (htype'.trans htype.symm)]

/-- What is kept in a run. -/
structure Managed (ops : ℕ → MemOpFields) (R : Registry) (alive : Finset ℕ) (regs : List ℕ) :
    Prop where
  listed : Listed ops R regs
  owned : Owned ops R alive

/-- **One call.** -/
theorem Managed.step {alive : Finset ℕ} (h : Managed ops R alive regs) (hops : Consistent ops)
    (hfuel : regs.length < fuel) {call : RegistryOp} (hlegal : Registry.legal ops (R, alive) call) :
    ∃ R' alive' regs', Registry.step ops fuel (R, alive) call = some (R', alive') ∧
      Managed ops R' alive' regs' ∧ regs'.length ≤ regs.length + 1 := by
  obtain ⟨hlisted, howned⟩ := h
  cases call with
  | addAllocator op calloc =>
      obtain ⟨ret, R', hadd, hpriv, hblocks, hmms, hcase⟩ :=
        hlisted.addAllocator hfuel op fun p hp => (hlegal p hp).1
      have howned' := howned.congr hpriv hblocks hmms
      have hstep : Registry.step ops fuel (R, alive) (.addAllocator op calloc) =
          some (R', alive) := by
        simp only [Registry.step, hadd, Option.bind_eq_bind, Option.bind_some]
      rcases hcase with ⟨-, rfl, -⟩ | ⟨-, -, hlisted'⟩
      · exact ⟨R', alive, regs, hstep, ⟨hlisted, howned'⟩, Nat.le_succ _⟩
      · exact ⟨R', alive, regs ++ [op], hstep, ⟨hlisted', howned'⟩, by simp⟩
  | mmInit m type calloc ret =>
      obtain ⟨hm, op, hhas, hinit⟩ := hlegal
      have hmm := hlisted.mmInit hfuel (hlisted.find?_eq hhas) m calloc ret
      by_cases hop : (ops op).init = true
      · obtain ⟨halone, p, hp, hfresh⟩ := hinit hop
        obtain rfl : calloc = some p := hp
        rw [if_pos hop, Option.map_some] at hmm
        refine ⟨R.provided m op p, insert m alive, regs, ?_,
          ⟨hlisted.congr rfl rfl, howned.provide hm hop halone hfresh.2⟩, Nat.le_succ _⟩
        simp only [Registry.step, hmm, Option.bind_eq_bind, Option.bind_some]
      · rw [if_neg hop] at hmm
        refine ⟨R.installed m op, insert m alive, regs, ?_,
          ⟨hlisted.congr rfl rfl, howned.install hm (Bool.eq_false_iff.mpr hop)⟩, Nat.le_succ _⟩
        simp only [Registry.step, hmm, Option.bind_eq_bind, Option.bind_some]
  | mmUinit m ret =>
      obtain ⟨ret', R', huinit, hlinks, hallocs, howned'⟩ := howned.mmUinit hops hlegal ret
      refine ⟨R', alive.erase m, regs, ?_, ⟨hlisted.congr hlinks hallocs, howned'⟩, Nat.le_succ _⟩
      simp only [Registry.step, huinit, Option.bind_eq_bind, Option.bind_some]

theorem Managed.run {alive : Finset ℕ} (h : Managed ops R alive regs) (hops : Consistent ops)
    {calls : List RegistryOp} (hfuel : regs.length + calls.length < fuel)
    (hcalls : Run.Guarded (Registry.step ops fuel) (Registry.legal ops) (R, alive) calls) :
    ∃ R' alive' regs', calls.foldlM (Registry.step ops fuel) (R, alive) = some (R', alive') ∧
      Managed ops R' alive' regs' ∧ regs'.length ≤ regs.length + calls.length := by
  induction calls generalizing R alive regs with
  | nil => exact ⟨R, alive, regs, rfl, h, Nat.le_refl _⟩
  | cons call calls ih =>
      rw [List.length_cons] at hfuel
      have hfuel₀ : regs.length < fuel := by omega
      obtain ⟨R₁, alive₁, regs₁, hstep, h₁, hlen₁⟩ := h.step hops hfuel₀ hcalls.1
      have hfuel₁ : regs₁.length + calls.length < fuel := by omega
      obtain ⟨R', alive', regs', hrun, h', hlen'⟩ := ih h₁ hfuel₁ (hcalls.2 _ hstep)
      refine ⟨R', alive', regs', ?_, h', ?_⟩
      · rw [List.foldlM_cons]
        exact Option.bind_eq_some_iff.mpr ⟨_, hstep, hrun⟩
      · rw [List.length_cons]
        omega

/-- The two allocators of the library, at the addresses 0 and 1. -/
def libraryOps (op : ℕ) : MemOpFields := if op = 1 then colorFields else simpleFields

theorem consistent_libraryOps : Consistent libraryOps := by
  intro op
  rw [libraryOps]
  split_ifs <;> decide

/-- The colour allocator is registered. -/
def colorRegistered : RegistryOp := .addAllocator 1 (some 11)

theorem guarded_colorRegistered {calls : List RegistryOp}
    (h : ∀ R, R.Has libraryOps MEM_ALLOC_COLOR 1 → R.Fresh 12 → R.Fresh 13 →
      Run.Guarded (Registry.step libraryOps 5) (Registry.legal libraryOps) (R, ∅) calls) :
    Run.Guarded (Registry.step libraryOps 5) (Registry.legal libraryOps) (.start, ∅)
      (colorRegistered :: calls) := by
  refine ⟨fun p hp => ⟨rfl, rfl⟩, fun s' hs' => ?_⟩
  obtain rfl := Option.some.inj hs'
  exact h _ ⟨rfl, 11, rfl⟩ ⟨rfl, rfl⟩ ⟨rfl, rfl⟩

/-- **Two managers of an allocator share its private data.**  After every such run: if two more
managers get an allocator with private data, both see that of the second one.  Whichever of them
is given up first frees it, the other one then frees it again, and what the first one got is
lost. -/
theorem registry_run_shared (hops : Consistent ops) {calls : List RegistryOp}
    (hfuel : calls.length < fuel)
    (hcalls : Run.Guarded (Registry.step ops fuel) (Registry.legal ops) (.start, ∅) calls) :
    ∃ R alive, calls.foldlM (Registry.step ops fuel) (.start, ∅) = some (R, alive) ∧
      ∀ type op m m' p p', R.Has ops type op → (ops op).init = true → m ∉ alive → m' ∉ alive →
        m ≠ m' → R.Fresh p → R.Fresh p' → p ≠ p' → ∀ ret ret',
        ∃ R₁, [RegistryOp.mmInit m type (some p) ret, .mmInit m' type (some p') ret'].foldlM
            (Registry.step ops fuel) (R, alive) = some (R₁, insert m' (insert m alive)) ∧
          R₁.mmGetPriv m = some p' ∧ R₁.mmGetPriv m' = some p' ∧
          ∀ x y, (x = m ∧ y = m' ∨ x = m' ∧ y = m) → ∀ ret ret', ∃ ret₂ R₂,
            R₁.mmUinit ops x ret = some (ret₂, R₂) ∧ R₂.blocks p = true ∧
            (∀ z ∈ insert m' (insert m alive), R₂.mmGetPriv z ≠ some p) ∧
            R₂.mmUinit ops y ret' = none := by
  have hstart : Managed ops .start ∅ [] := ⟨listed_start, owned_start⟩
  obtain ⟨R, alive, regs, hrun, h, hlen⟩ := hstart.run hops (by simpa using hfuel) hcalls
  have hfuel' : regs.length < fuel := by
    rw [List.length_nil] at hlen
    omega
  refine ⟨R, alive, hrun, fun type op m m' p p' hhas hinit hm hm' hne hp hp' hpp ret ret' => ?_⟩
  have hfind := h.listed.find?_eq hhas
  have hsize := (hops op).1.mp hinit
  let R' := R.provided m op p
  let R₁ := R'.provided m' op p'
  have hmms : R₁.mms m = some (.zero, op) ∧ R₁.mms m' = some (.zero, op) := by
    refine ⟨(Function.update_of_ne hne _ _).trans (Function.update_self _ _ _), ?_⟩
    exact Function.update_self _ _ _
  have hpriv : R₁.priv op = some p' := Function.update_self _ _ _
  have hblock : R₁.blocks p = true ∧ R₁.blocks p' = true := by
    refine ⟨(Function.update_of_ne hpp _ _).trans (Function.update_self _ _ _), ?_⟩
    exact Function.update_self _ _ _
  have hinit₁ := h.listed.mmInit hfuel' hfind m (some p) ret
  have hlisted : Listed ops R' regs := h.listed.congr rfl rfl
  have hinit₂ := hlisted.mmInit hfuel' hfind m' (some p') ret'
  rw [if_pos hinit, Option.map_some] at hinit₁ hinit₂
  refine ⟨R₁, ?_, (mmGetPriv_eq hmms.1).trans hpriv, (mmGetPriv_eq hmms.2).trans hpriv, ?_⟩
  · simp only [List.foldlM_cons, List.foldlM_nil, Registry.step, hinit₁, Option.bind_eq_bind,
      Option.bind_some]
    rw [hinit₂]
    rfl
  · intro x y hxy ret ret'
    have hxy' : R₁.mms x = some (.zero, op) ∧ R₁.mms y = some (.zero, op) := by
      rcases hxy with ⟨rfl, rfl⟩ | ⟨rfl, rfl⟩
      · exact hmms
      · exact hmms.symm
    let R₂ : Registry := { R₁ with blocks := Function.update R₁.blocks p' false }
    have hfreed : R₂.blocks p' = false := Function.update_self _ _ _
    refine ⟨_, R₂, mmUinit_eq hxy'.1 hpriv hblock.2 hsize ret,
      (Function.update_of_ne hpp _ _).trans hblock.1, fun z hz hpz => ?_,
      mmUinit_eq_none (R := R₂) hxy'.2 hpriv hfreed hsize ret'⟩
    have hnew : ∀ x, R₁.mms x = some (.zero, op) → R₂.mmGetPriv x ≠ some p := fun x hx heq => by
      rw [mmGetPriv_eq (R := R₂) hx] at heq
      exact hpp (Option.some.inj (heq.symm.trans hpriv))
    by_cases hzm : z = m
    · exact hnew z (hzm ▸ hmms.1) hpz
    by_cases hzm' : z = m'
    · exact hnew z (hzm' ▸ hmms.2) hpz
    have hz' : z ∈ alive := by simpa [hzm, hzm'] using hz
    obtain ⟨⟨ms, opz⟩, hms⟩ := Option.isSome_iff_exists.mp (h.owned.installed z hz')
    have hms' : R₁.mms z = some (ms, opz) :=
      (Function.update_of_ne hzm' _ _).trans ((Function.update_of_ne hzm _ _).trans hms)
    rw [mmGetPriv_eq (R := R₂) hms'] at hpz
    by_cases hop : opz = op
    · rw [hop] at hpz
      exact hpp (Option.some.inj (hpz.symm.trans hpriv))
    · have hold : R.mmGetPriv z = some p := by
        rw [mmGetPriv_eq hms, ← hpz]
        exact ((Function.update_of_ne hop _ _).trans (Function.update_of_ne hop _ _)).symm
      exact Bool.false_ne_true (hp.2.symm.trans (h.owned.blocks_eq hz' hold))

/-- The colour allocator with two managers. -/
theorem registry_run_shared_color :
    ∃ R R₁ ret₂ R₂,
      [colorRegistered].foldlM (Registry.step libraryOps 5) (.start, ∅) = some (R, ∅) ∧
      [RegistryOp.mmInit 100 MEM_ALLOC_COLOR (some 12) 0,
          .mmInit 101 MEM_ALLOC_COLOR (some 13) 0].foldlM (Registry.step libraryOps 5) (R, ∅) =
        some (R₁, {101, 100}) ∧
      R₁.mmGetPriv 100 = some 13 ∧ R₁.mmUinit libraryOps 100 0 = some (ret₂, R₂) ∧
      R₂.blocks 12 = true ∧ R₂.mmUinit libraryOps 101 0 = none := by
  have hcalls : Run.Guarded (Registry.step libraryOps 5) (Registry.legal libraryOps) (.start, ∅)
      [colorRegistered] := guarded_colorRegistered fun _ _ _ _ => trivial
  obtain ⟨R, alive, hrun, hshared⟩ := registry_run_shared consistent_libraryOps (by decide) hcalls
  obtain ⟨R', hrun', hhas, h12, h13⟩ : ∃ R', [colorRegistered].foldlM
      (Registry.step libraryOps 5) (.start, ∅) = some (R', ∅) ∧
      R'.Has libraryOps MEM_ALLOC_COLOR 1 ∧ R'.Fresh 12 ∧ R'.Fresh 13 :=
    ⟨_, rfl, ⟨rfl, 11, rfl⟩, ⟨rfl, rfl⟩, ⟨rfl, rfl⟩⟩
  rw [hrun'] at hrun
  cases hrun
  obtain ⟨R₁, hinit, hget, -, huinit⟩ := hshared MEM_ALLOC_COLOR 1 100 101 12 13 hhas rfl
    (by simp) (by simp) (by decide) h12 h13 (by decide) 0 0
  obtain ⟨ret₂, R₂, hfirst, hblock, -, hsecond⟩ := huinit 100 101 (.inl ⟨rfl, rfl⟩) 0 0
  exact ⟨R, R₁, ret₂, R₂, hrun', hinit, hget, hfirst, hblock, hsecond⟩

end Registry

end TreeBitmap
