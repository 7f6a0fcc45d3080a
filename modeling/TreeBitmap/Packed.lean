import TreeBitmap.CompressNhi
import TreeBitmap.Edits
import TreeBitmap.Lib.Shared

/-!
# Nodes of the `COMPRESS_NHI` build

The words of a node are its mask and a rank-indexed array with shared entries: the
positions of the mask are the owners.  Each edit of a node is then one of the updates of
such an array, and it leaves the next hops of the other positions alone just if that
update does.

## Main definitions

* `Packed c f` — the words of the node hold the next hops `f`.
* `Screened c pos` — no position below `pos` uses the slot of `pos` or one above.
* `SharesNext c pos nhi` — the next position above has this next hop, by `is_redund`.
* `extendRule_spec`, `reduceRule_spec`, `assign_spec` — the edits of the next hops.
* `extendChild_spec`, `reduceChild_spec` — the edits of the children.
-/

namespace TreeBitmap

namespace CompressNhi

open Ranked

variable {m : Mm} {c : MbNode} {f : ℕ → Option Nhi} {mask : Bitmap} {slots used pad : List Nhi}
  {pos level : ℕ} {nhi : Nhi}

/-! ## The words of a node -/

/-- The words in use, for the positions `R` of `internal`. -/
inductive Words (R : Finset ℕ) (f : ℕ → Option Nhi) : List Nhi → Prop
  | empty (hR : R = ∅) : Words R f []
  | packed {mask : Bitmap} {slots : List Nhi} (hR : R.Nonempty)
      (shares : Shares R (members mask) slots f) : Words R f (mask :: slots)

/-- The words of the node hold the next hops `f`. -/
def Packed (c : MbNode) (f : ℕ → Option Nhi) : Prop :=
  ∃ used pad, c.rules = used ++ pad ∧ Words (members c.internal) f used

theorem packed_zero (f : ℕ → Option Nhi) : Packed .zero f :=
  ⟨[], [], rfl, .empty members_zero⟩

theorem Packed.congr {f' : ℕ → Option Nhi} (h : Packed c f)
    (hf : ∀ i ∈ members c.internal, f' i = f i) : Packed c f' := by
  obtain ⟨used, pad, hrules, hwords⟩ := h
  refine ⟨used, pad, hrules, ?_⟩
  cases hwords with
  | empty hR => exact .empty hR
  | packed hR hs => exact .packed hR (hs.congr hf)

theorem getInlMask_eq (hrules : c.rules = (mask :: slots) ++ pad) : getInlMask c = some mask := by
  rw [getInlMask, hrules]
  rfl

theorem ruleNum_eq (hrules : c.rules = used ++ pad) (h : Words (members c.internal) f used) :
    ruleNum c = some used.length := by
  cases h with
  | empty hR => rw [ruleNum, if_neg (not_not.mpr (members_eq_empty_iff.mp hR)), List.length_nil]
  | packed hR hs =>
      have hne : c.internal ≠ 0#64 := fun h => hR.ne_empty (members_eq_empty_iff.mpr h)
      rw [ruleNum, if_pos hne, getInlMask_eq hrules, List.length_cons, hs.length,
        ← countChildren_eq_card]
      rfl

theorem setInlMask_eq (mask' : Bitmap) (hrules : c.rules = (mask :: slots) ++ pad) :
    setInlMask c mask' = some { c with rules := (mask' :: slots) ++ pad } := by
  have hstore : store ((mask :: slots) ++ pad) 0 mask' = some ((mask' :: slots) ++ pad) :=
    store_natCast (l := (mask :: slots) ++ pad) (i := 0) (by simp) mask'
  rw [setInlMask, hrules, hstore]
  rfl

/-- The slot that `pointer_to_nhi` computes is the one of the owner. -/
theorem pointerToNhi_eq {o : ℕ} (hrules : c.rules = (mask :: slots) ++ pad)
    (ho : IsOwner (members mask) pos o) :
    pointerToNhi c pos = some ⟨c, ((rank (members mask) o + 1 : ℕ) : ℤ)⟩ := by
  have hcount : countOnes mask pos + 1 = ((rank (members mask) o + 1 : ℕ) : ℤ) := by
    rw [countOnes, popcount_ushiftRight, card_filter_le ho, sub_add_cancel]
  rw [pointerToNhi, getInlMask_eq hrules, Option.bind_eq_bind, Option.bind_some, hcount]

theorem deref_slot {r : ℕ} (hrules : c.rules = (mask :: slots) ++ pad) (hr : r < slots.length) :
    NhiPtr.deref ⟨c, ((r + 1 : ℕ) : ℤ)⟩ = slots[r]? := by
  rw [NhiPtr.deref, load_natCast, hrules, List.cons_append, List.getElem?_cons_succ,
    List.getElem?_append_left hr]

/-- A node with a next hop has a mask and slots. -/
theorem Packed.exists_shares (h : Packed c f) (hpos : pos ∈ members c.internal) :
    ∃ mask slots pad, c.rules = (mask :: slots) ++ pad ∧
      Shares (members c.internal) (members mask) slots f := by
  obtain ⟨used, pad, hrules, hwords⟩ := h
  cases hwords with
  | empty hR =>
      rw [hR] at hpos
      exact absurd hpos (Finset.notMem_empty pos)
  | @packed mask slots hR hs => exact ⟨mask, slots, pad, hrules, hs⟩

/-- **Every next hop is read** through its pointer. -/
theorem Packed.deref (h : Packed c f) (hpos : pos ∈ members c.internal) :
    ∃ p, pointerToNhi c pos = some p ∧ p.deref = f pos := by
  obtain ⟨mask, slots, pad, hrules, hs⟩ := h.exists_shares hpos
  obtain ⟨o, ho⟩ := hs.exists_owner hpos
  refine ⟨_, pointerToNhi_eq hrules ho, ?_⟩
  rw [deref_slot hrules (hs.length ▸ rank_lt_card ho.mem), hs.lookup_owner hpos ho]

theorem Packed.exists_eq_some (h : Packed c f) (hpos : pos ∈ members c.internal) :
    ∃ v, f pos = some v := by
  obtain ⟨mask, slots, pad, -, hs⟩ := h.exists_shares hpos
  obtain ⟨o, ho⟩ := hs.exists_owner hpos
  rw [← hs.value pos hpos o ho]
  exact Option.isSome_iff_exists.mp (lookup_isSome hs.length ho.mem)

/-! ## What an edit has to look at -/

/-- The position has a slot of its own. -/
def Owns (c : MbNode) (pos : ℕ) : Prop := ∃ mask, getInlMask c = some mask ∧ testBitmap mask pos

/-- The next hop read for the position. -/
def Reads (c : MbNode) (pos : ℕ) (nhi : Nhi) : Prop :=
  ∃ p, pointerToNhi c pos = some p ∧ p.deref = some nhi

theorem Packed.reads_iff (h : Packed c f) (hpos : pos ∈ members c.internal) :
    Reads c pos nhi ↔ f pos = some nhi := by
  obtain ⟨p, hp, hderef⟩ := h.deref hpos
  constructor
  · intro hreads
    obtain ⟨q, hq, hv⟩ := hreads
    obtain rfl : p = q := Option.some.inj (hp.symm.trans hq)
    rw [← hderef, hv]
  · intro hf
    exact ⟨p, hp, hderef.trans hf⟩

theorem owns_iff (hrules : c.rules = (mask :: slots) ++ pad) : Owns c pos ↔ pos ∈ members mask := by
  rw [Owns, getInlMask_eq hrules]
  simp [testBitmap_iff]

/-- The next position above `pos` has this next hop. -/
def SharesNext (c : MbNode) (pos : ℕ) (nhi : Nhi) : Prop := isRedund c pos nhi = some true

/-- No position below `pos` uses the slot of `pos` or one above. -/
def Screened (c : MbNode) (pos : ℕ) : Prop :=
  ∀ mask, getInlMask c = some mask → Detached (members c.internal) (members mask) pos

theorem members_clearBelow (b : Bitmap) (k : ℕ) :
    members ((b >>> k) <<< k) = (members b).filter (k ≤ ·) := by
  ext i
  simp only [mem_members, Finset.mem_filter, BitVec.getLsbD_shiftLeft, BitVec.getLsbD_ushiftRight,
    Bool.and_eq_true, decide_eq_true_eq, Bool.not_eq_true', decide_eq_false_iff_not, not_lt]
  constructor
  · intro h
    obtain ⟨⟨-, hki⟩, hb⟩ := h
    rw [Nat.add_sub_cancel' hki] at hb
    exact ⟨hb, hki⟩
  · intro h
    obtain ⟨hb, hki⟩ := h
    refine ⟨⟨BitVec.lt_of_getLsbD hb, hki⟩, ?_⟩
    rwa [Nat.add_sub_cancel' hki]

/-- `rightmost_1bit_idx` is the least position. -/
theorem ctz_spec {b : Bitmap} (hb : b ≠ 0#64) :
    ctz b ∈ members b ∧ ∀ i ∈ members b, ctz b ≤ i := by
  rw [ctz, if_pos hb]
  refine ⟨mem_members.mpr (BitVec.getLsbD_true_ctz_of_ne_zero hb), fun i hi => ?_⟩
  by_contra hlt
  have := BitVec.getLsbD_false_of_lt_ctz (x := b) (i := i) (by omega)
  rw [mem_members, this] at hi
  cases hi

/-- **`is_redund`** looks at the slot of the first owner above the position. -/
theorem isRedund_spec (hrules : c.rules = (mask :: slots) ++ pad)
    (hs : Shares (members c.internal) (members mask) slots f) (hR : (members c.internal).Nonempty)
    (pos : ℕ) (nhi : Nhi) :
    ∃ b, isRedund c pos nhi = some b ∧ (b = true →
      ∃ o, IsOwner ((members mask).erase pos) pos o ∧
        lookup (members mask) slots o = some nhi) := by
  rw [isRedund]
  by_cases hzero : (c.internal >>> (pos + 1)) <<< (pos + 1) = 0#64
  · exact ⟨false, if_pos hzero, by simp⟩
  · obtain ⟨hidx, hleast⟩ := ctz_spec hzero
    rw [members_clearBelow, Finset.mem_filter] at hidx
    have hnext : ∀ k ∈ members c.internal, pos < k →
        ctz ((c.internal >>> (pos + 1)) <<< (pos + 1)) ≤ k := by
      intro k hk hpk
      apply hleast
      rw [members_clearBelow]
      exact Finset.mem_filter.mpr ⟨hk, hpk⟩
    have hpacked : Packed c f := ⟨_, _, hrules, .packed hR hs⟩
    obtain ⟨p, hp, hderef⟩ := hpacked.deref hidx.1
    obtain ⟨v, hv⟩ := hpacked.exists_eq_some hidx.1
    obtain ⟨o, ho⟩ := hs.exists_owner hidx.1
    refine ⟨v == nhi, ?_, fun heq => ⟨o, (hs.isOwner_iff_next hidx.2 hnext).mpr ho, ?_⟩⟩
    · simp only [if_neg hzero, hp, hderef, hv, Option.bind_eq_bind, Option.bind_some]
    · rw [hs.value _ hidx.1 o ho, hv, beq_iff_eq.mp heq]

/-! ## Blocks -/

/-- The children, into a new block. -/
theorem copy_children (hkids : c.children.length = (members c.external).card) :
    (if countChildren c.external ≠ 0 then memcpy
        (List.replicate (countChildren c.external) MbNode.zero) 0 c.children 0
        (countChildren c.external)
      else some (List.replicate (countChildren c.external) MbNode.zero)) = some c.children := by
  have hall := copy_all c.children MbNode.zero
  rwa [hkids, ← countChildren_eq_card] at hall

/-- A new block has room for what was asked for. -/
theorem le_words (x : ℕ) : x ≤ words (upRule x) := by
  simp only [words, upRule, NODE_SIZE]
  omega

theorem newNode_spec (hok : m.Succeeds) (mbCnt nhCnt : ℕ) (hlevel : level < MAX_LEVEL) :
    ∃ ptr m', newNode m mbCnt nhCnt level =
        some (⟨ptr, List.replicate (words (upRule nhCnt)) 0, List.replicate mbCnt MbNode.zero⟩,
          m') ∧ m'.op = m.op := by
  obtain ⟨ret, m', halloc, hop, -, hnull, -, -⟩ :=
    allocNode_spec hok (upChild mbCnt + upRule nhCnt) hlevel
  rw [newNode, halloc]
  cases ret with
  | none =>
      have hzero := hnull rfl
      have hnh : upRule nhCnt = 0 := by omega
      have hmb : mbCnt = 0 := by
        rw [upChild] at hzero
        omega
      subst hmb
      rw [hnh]
      exact ⟨none, m', rfl, hop⟩
  | some p => exact ⟨_, m', rfl, hop⟩

theorem freeOld_spec (m : Mm) (c : MbNode) (ruleNum childNum : ℕ) (hlevel : level < MAX_LEVEL) :
    ∃ m', freeOld m c ruleNum childNum level = some m' ∧ m'.op = m.op := by
  rw [freeOld]
  rcases c.childPtr with _ | p
  · exact ⟨m, rfl, rfl⟩
  · obtain ⟨m', hfree, hop, -⟩ := deallocNode_spec m (upChild childNum + upRule ruleNum) hlevel
      (p.sub (upRule ruleNum))
    exact ⟨m', hfree, hop⟩

/-! ## The edits of the next hops -/

/-- **`*pointer_to_nhi(node, pos) = nhi`** changes one next hop, if no other position uses
the slot or if the next hop is the one that is there. -/
theorem assign_spec (h : Packed c f) (hpos : pos ∈ members c.internal)
    (hfit : Reads c pos nhi ∨ Owns c pos ∧ Screened c pos) :
    ∃ p rules, pointerToNhi c pos = some p ∧ p.assign nhi = some { c with rules := rules } ∧
      Packed { c with rules := rules } (Function.update f pos (some nhi)) := by
  rw [h.reads_iff hpos] at hfit
  obtain ⟨mask, slots, pad, hrules, hs⟩ := h.exists_shares hpos
  obtain ⟨o, ho⟩ := hs.exists_owner hpos
  have hlt : rank (members mask) o < slots.length := hs.length ▸ rank_lt_card ho.mem
  have hstore : store c.rules ((rank (members mask) o + 1 : ℕ) : ℤ) nhi =
      some ((mask :: slots.set (rank (members mask) o) nhi) ++ pad) := by
    rw [hrules, store_natCast (by simp; omega), List.cons_append, List.set_cons_succ,
      List.set_append_left _ _ hlt]
    rfl
  refine ⟨_, (mask :: slots.set (rank (members mask) o) nhi) ++ pad,
    pointerToNhi_eq hrules ho, ?_, _, pad, rfl, .packed ⟨pos, hpos⟩ ?_⟩
  · rw [NhiPtr.assign, hstore]
    rfl
  · rcases hfit with hsame | ⟨hown, hscreen⟩
    · have hget : slots[rank (members mask) o] = nhi := by
        have := hs.lookup_owner hpos ho
        rw [hsame, List.getElem?_eq_getElem hlt] at this
        exact Option.some.inj this
      have hself : slots.set (rank (members mask) o) nhi = slots := by
        rw [← hget, List.set_getElem_self]
      have hf : Function.update f pos (some nhi) = f := by
        rw [← hsame, Function.update_eq_self]
      rw [hself, hf]
      exact hs
    · have hmem := (owns_iff hrules).mp hown
      obtain rfl : o = pos := ho.unique (isOwner_self hmem)
      exact hs.set_owner hmem (hscreen _ (getInlMask_eq hrules))

/-- What an edit leaves that changes the next hops and `internal` only. -/
structure Edited (c c' : MbNode) (f : ℕ → Option Nhi) (m m' : Mm) : Prop where
  external : c'.external = c.external
  children : c'.children = c.children
  packed : Packed c' f
  op : m'.op = m.op

/-- The first next hop of a node. -/
theorem extendRule_first (hok : m.Succeeds) (hlevel : level < MAX_LEVEL)
    (hkids : c.children.length = (members c.external).card) (hzero : c.internal = 0#64)
    (hpos : pos < 63) (nhi : Nhi) :
    ∃ c' m', extendRule m c pos level nhi = some (c', m') ∧
      c'.internal = setBitmap c.internal pos ∧
      Edited c c' (Function.update f pos (some nhi)) m m' := by
  obtain ⟨ptr, m₁, hnew, hop₁⟩ := newNode_spec hok (countChildren c.external) (0 + 1) hlevel
  obtain ⟨m₂, hfree, hop₂⟩ := freeOld_spec m₁ { c with internal := setBitmap c.internal pos } 0
    (countChildren c.external) hlevel
  have hmem : members c.internal = ∅ := members_eq_empty_iff.mpr hzero
  have hset : members (setBitmap c.internal pos) = insert pos ∅ := by
    rw [members_setBitmap (by omega), hmem]
  refine ⟨⟨c.external, setBitmap c.internal pos, ptr, [setBitmap c.internal pos, nhi, 0],
    c.children⟩, m₂, ?_, rfl, rfl, rfl, ?_, hop₂.trans hop₁⟩
  · have hall := copy_children hkids
    have hne : ¬ c.internal ≠ 0#64 := not_not.mpr hzero
    have hred : isRedund c pos nhi = some false := by
      rw [isRedund, hzero]
      exact if_pos (by simp)
    have hnum : ruleNum c = some 0 := by
      rw [ruleNum, if_neg hne]
    have hmask : store (List.replicate (words (upRule (0 + 1))) 0) 0 (setBitmap c.internal pos) =
      some [setBitmap c.internal pos, 0, 0] := rfl
    have hslot : store [setBitmap c.internal pos, 0, 0] (2 - 1) nhi =
      some [setBitmap c.internal pos, nhi, 0] := rfl
    simp only [extendRule, hnum, hred, if_neg hne, hnew, upChild, hall, hmask, hslot, hfree,
      if_neg (not_not.mpr rfl : ¬ (0 : ℕ) ≠ 0), if_neg (lt_irrefl (0 : ℕ)), Bool.false_eq_true,
      if_false, Option.bind_eq_bind, Option.bind_some]
  · have hshares : Shares (insert pos ∅) (insert pos ∅) [nhi] (Function.update f pos (some nhi)) :=
      Shares.empty.add_owner (Finset.notMem_empty pos) (detached_empty ∅ pos)
    refine ⟨[setBitmap c.internal pos, nhi], [0], rfl, .packed ?_ ?_⟩
    · simp only [hset]
      exact Finset.insert_nonempty pos ∅
    · simp only [hset]
      exact hshares

/-- A next hop with a slot of its own, beside others. -/
theorem extendRule_slot (hok : m.Succeeds) (hlevel : level < MAX_LEVEL)
    (hkids : c.children.length = (members c.external).card)
    (hrules : c.rules = (mask :: slots) ++ pad) (hR : (members c.internal).Nonempty)
    (hs : Shares (members c.internal) (members mask) slots f) (hpos : pos < 63)
    (hclear : pos ∉ members c.internal) (hd : Detached (members c.internal) (members mask) pos)
    (hred : isRedund c pos nhi = some false) :
    ∃ c' m', extendRule m c pos level nhi = some (c', m') ∧
      c'.internal = setBitmap c.internal pos ∧
      Edited c c' (Function.update f pos (some nhi)) m m' := by
  set r := rank (members mask) pos with hr
  set k := slots.length + 1 with hk
  have hle : r + 1 ≤ k := Nat.succ_le_succ (hs.length ▸ rank_le_card _ _)
  obtain ⟨ptr, m₁, hnew, hop₁⟩ := newNode_spec hok (countChildren c.external) (k + 1) hlevel
  obtain ⟨m₂, hfree, hop₂⟩ := freeOld_spec m₁ ⟨c.external, setBitmap c.internal pos, c.childPtr,
    (setBitmap mask pos :: slots) ++ pad, c.children⟩ k (countChildren c.external) hlevel
  have hroom := le_words (k + 1)
  set dst := (List.replicate (words (upRule (k + 1))) (0 : Nhi)).set 0 (setBitmap mask pos)
    with hdst
  have hlen : dst.length = words (upRule (k + 1)) := by
    rw [hdst, List.length_set, List.length_replicate]
  refine ⟨⟨c.external, setBitmap c.internal pos, ptr,
    (setBitmap mask pos :: slots.insertIdx r nhi) ++ dst.drop (k + 1), c.children⟩, m₂, ?_, rfl,
    rfl, rfl, ?_, hop₂.trans hop₁⟩
  · have hne : c.internal ≠ 0#64 := fun h => hR.ne_empty (members_eq_empty_iff.mpr h)
    have hk0 : k ≠ 0 := Nat.succ_ne_zero _
    have hnum : ruleNum c = some k := ruleNum_eq hrules (.packed hR hs)
    have hget' : getInlMask ⟨c.external, setBitmap c.internal pos, c.childPtr,
      (setBitmap mask pos :: slots) ++ pad, c.children⟩ = some (setBitmap mask pos) :=
        getInlMask_eq rfl
    have hcount : countOnes (setBitmap mask pos) pos = r := countOnes_setBitmap mask (by omega)
    have hall := copy_children hkids
    have hmask : store (List.replicate (words (upRule (k + 1))) 0) 0 (setBitmap mask pos) =
      some dst := store_natCast (i := 0) (by rw [List.length_replicate]; omega) _
    have hy : dst[r + 1]? = some 0 := by
      rw [hdst, List.getElem?_set_ne (by omega), List.getElem?_replicate_of_lt (by omega)]
    have hgap : ((memcpy dst 0 ((setBitmap mask pos :: slots) ++ pad) 0 (r + 1 : ℕ)).bind fun d =>
        memcpy d ((r + 1 : ℕ) + 1) ((setBitmap mask pos :: slots) ++ pad) (r + 1 : ℕ)
          (k - (r + 1 : ℕ))) =
        some ((setBitmap mask pos :: slots.insertIdx r 0) ++ dst.drop (k + 1)) :=
      memcpy_gap dst (l := setBitmap mask pos :: slots) pad hle (by rw [hlen]; exact hroom) hy
    have hslot : store ((setBitmap mask pos :: slots.insertIdx r 0) ++ dst.drop (k + 1))
        (r + 1 : ℕ) nhi =
        some ((setBitmap mask pos :: slots.insertIdx r nhi) ++ dst.drop (k + 1)) := by
      have hlt : r < (slots.insertIdx r (0 : Nhi)).length := by
        rw [List.length_insertIdx_of_le_length (by omega)]
        omega
      rw [store_natCast (by rw [List.length_append, List.length_cons]; omega), List.cons_append,
        List.set_cons_succ, List.set_append_left _ _ hlt, set_insertIdx (by omega)]
      rfl
    have e₁ : (r : ℤ) + 1 + 1 - 1 = ((r + 1 : ℕ) : ℤ) := by push_cast; ring
    have e₂ : (k : ℤ) - (r + 1 + 1) + 1 = k - (r + 1 : ℕ) := by push_cast; ring
    have e₃ : (k : ℤ) + 1 - (k - (r + 1 : ℕ)) = (r + 1 : ℕ) + 1 := by ring
    have e₄ : (k : ℤ) - (k - (r + 1 : ℕ)) = (r + 1 : ℕ) := by ring
    simp only [extendRule, hnum, hred, if_pos hne, getInlMask_eq hrules, setInlMask_eq _ hrules,
      hcount, hnew, upChild, hall, hget', hmask, memcpyRules, e₁, e₂, e₃, e₄, if_pos hk0,
      if_pos (Nat.pos_of_ne_zero hk0), sub_self, hgap, hslot, hfree, Bool.false_eq_true, if_false,
      Option.bind_eq_bind, Option.bind_some]
  · have hset : members (setBitmap c.internal pos) = insert pos (members c.internal) :=
      members_setBitmap (by omega)
    refine ⟨_, _, rfl, .packed ?_ ?_⟩
    · simp only [hset]
      exact Finset.insert_nonempty pos _
    · simp only [hset, members_setBitmap (b := mask) (show pos < 64 by omega)]
      exact hs.add_owner hclear hd

/-- **`extend_rule`** adds one next hop, if the next position above has it too or if no
position below uses a slot above. -/
theorem extendRule_spec (hok : m.Succeeds) (hlevel : level < MAX_LEVEL)
    (hkids : c.children.length = (members c.external).card) (h : Packed c f) (hpos : pos < 63)
    (hclear : pos ∉ members c.internal) (hfit : SharesNext c pos nhi ∨ Screened c pos) :
    ∃ c' m', extendRule m c pos level nhi = some (c', m') ∧
      c'.internal = setBitmap c.internal pos ∧
      Edited c c' (Function.update f pos (some nhi)) m m' := by
  obtain ⟨used, pad, hrules, hwords⟩ := h
  cases hwords with
  | empty hR => exact extendRule_first hok hlevel hkids (members_eq_empty_iff.mp hR) hpos nhi
  | packed hR hs =>
      obtain ⟨b, hred, hshared⟩ := isRedund_spec hrules hs hR pos nhi
      cases b with
      | true =>
          obtain ⟨o, ho, hx⟩ := hshared rfl
          rw [Finset.erase_eq_of_notMem fun hpS => hclear (hs.subset hpS)] at ho
          have hset : members (setBitmap c.internal pos) = insert pos (members c.internal) :=
            members_setBitmap (by omega)
          refine ⟨{ c with internal := setBitmap c.internal pos }, m, ?_, rfl, rfl, rfl,
            ⟨_, pad, hrules, .packed ?_ ?_⟩, rfl⟩
          · simp only [extendRule, ruleNum_eq hrules (.packed hR hs), hred, if_true,
              Option.bind_eq_bind, Option.bind_some]
          · simp only [hset]
            exact Finset.insert_nonempty pos _
          · simp only [hset]
            exact hs.add_shared ho hx
      | false =>
          rcases hfit with hnext | hscreen
          · rw [SharesNext, hred] at hnext
            cases hnext
          · exact extendRule_slot hok hlevel hkids hrules hR hs hpos hclear
              (hscreen _ (getInlMask_eq hrules)) hred

theorem card_erase_owner (hs : Shares (members c.internal) (members mask) slots f)
    (hown : pos ∈ members mask) : ((members mask).erase pos).card = slots.length - 1 := by
  rw [Finset.card_erase_of_mem hown, ← hs.length]

/-- The last slot goes, and the array with it. -/
theorem reduceRule_last (hok : m.Succeeds) (hlevel : level < MAX_LEVEL)
    (hkids : c.children.length = (members c.external).card)
    (hrules : c.rules = (mask :: slots) ++ pad)
    (hs : Shares (members c.internal) (members mask) slots f) (hown : pos ∈ members mask)
    (hshares : Shares ((members c.internal).erase pos) ((members mask).erase pos)
      (slots.eraseIdx (rank (members mask) pos)) f) (hone : slots.length = 1) :
    ∃ c' m', reduceRule m c pos level = some (c', m') ∧
      c'.internal = clearBitmap c.internal pos ∧ Edited c c' f m m' := by
  obtain ⟨ptr, m₁, hnew, hop₁⟩ := newNode_spec hok (countChildren c.external) 0 hlevel
  obtain ⟨m₂, hfree, hop₂⟩ := freeOld_spec m₁ ⟨c.external, c.internal, c.childPtr,
    (clearBitmap mask pos :: slots) ++ pad, c.children⟩ 2 (countChildren c.external) hlevel
  refine ⟨⟨c.external, clearBitmap c.internal pos, ptr, [], c.children⟩, m₂, ?_, rfl, rfl, rfl,
    ⟨[], [], rfl, .empty ?_⟩, hop₂.trans hop₁⟩
  · have hnum : ruleNum c = some 2 := by
      rw [ruleNum_eq hrules (.packed ⟨pos, hs.subset hown⟩ hs), List.length_cons, hone]
    have htest : ¬ ¬ testBitmap mask pos := not_not.mpr (testBitmap_iff.mpr hown)
    have hnil : List.replicate (words (upRule 0)) (0 : Nhi) = [] := rfl
    have htwo : ¬ 2 ≤ 1 := by decide
    simp only [reduceRule, hnum, getInlMask_eq hrules, if_neg htest, setInlMask_eq _ hrules,
      if_neg htwo, if_true, hnew, hnil, upChild, copy_children hkids, lt_irrefl, if_false, hfree,
      Option.bind_eq_bind, Option.bind_some]
  · have hempty : (members mask).erase pos = ∅ := by
      rw [← Finset.card_eq_zero, card_erase_owner hs hown, hone]
    rw [members_clearBitmap]
    apply Finset.eq_empty_of_forall_notMem
    intro i hi
    obtain ⟨o, ho, -⟩ := hshares.owned i hi
    rw [hempty] at ho
    exact Finset.notMem_empty o ho

/-- A slot goes. -/
theorem reduceRule_slot (hok : m.Succeeds) (hlevel : level < MAX_LEVEL)
    (hkids : c.children.length = (members c.external).card)
    (hrules : c.rules = (mask :: slots) ++ pad)
    (hs : Shares (members c.internal) (members mask) slots f) (hown : pos ∈ members mask)
    (hd : Detached (members c.internal) (members mask) pos ∨
      ∃ o, IsOwner ((members mask).erase pos) pos o ∧ lookup (members mask) slots o = f pos) :
    ∃ c' m', reduceRule m c pos level = some (c', m') ∧
      c'.internal = clearBitmap c.internal pos ∧ Edited c c' f m m' := by
  have hshares := hs.drop_owner hown hd
  by_cases hlast : slots.length = 1
  · exact reduceRule_last hok hlevel hkids hrules hs hown hshares hlast
  set r := rank (members mask) pos with hr
  set k := slots.length + 1 with hk
  have hlt : r < slots.length := hs.length ▸ rank_lt_card hown
  have hone : ¬ k ≤ 1 := by omega
  have htwo : ¬ k = 2 := by omega
  obtain ⟨ptr, m₁, hnew, hop₁⟩ := newNode_spec hok (countChildren c.external) (k - 1) hlevel
  obtain ⟨m₂, hfree, hop₂⟩ := freeOld_spec m₁ ⟨c.external, c.internal, c.childPtr,
    (clearBitmap mask pos :: slots) ++ pad, c.children⟩ k (countChildren c.external) hlevel
  have hroom := le_words (k - 1)
  set dst := List.replicate (words (upRule (k - 1))) (0 : Nhi) with hdst
  have hlen : dst.length = words (upRule (k - 1)) := List.length_replicate
  refine ⟨⟨c.external, clearBitmap c.internal pos, ptr,
    (clearBitmap mask pos :: slots.eraseIdx r) ++ dst.drop (k - 1), c.children⟩, m₂, ?_, rfl, rfl,
    rfl, ⟨_, _, rfl, .packed ?_ ?_⟩, hop₂.trans hop₁⟩
  · have hnum : ruleNum c = some k := ruleNum_eq hrules (.packed ⟨pos, hs.subset hown⟩ hs)
    have htest : ¬ ¬ testBitmap mask pos := not_not.mpr (testBitmap_iff.mpr hown)
    have hall := copy_children hkids
    have hmore : 2 < k := by omega
    have hcount : countOnes mask pos = r := countOnes_of_mem hown
    have hclose : ((memcpy dst 0 ((clearBitmap mask pos :: slots) ++ pad) 0 (r + 1 : ℕ)).bind
        fun d => memcpy d (r + 1 : ℕ) ((clearBitmap mask pos :: slots) ++ pad) ((r + 1 : ℕ) + 1)
          (k - (r + 1 : ℕ) - 1)) =
        some ((clearBitmap mask pos :: slots.eraseIdx r) ++ dst.drop (k - 1)) :=
      memcpy_close dst (l := clearBitmap mask pos :: slots) pad (Nat.succ_lt_succ hlt)
        (by rw [hlen, List.length_cons]; omega)
    have e₁ : (r : ℤ) + 1 + 1 - 1 = ((r + 1 : ℕ) : ℤ) := by push_cast; ring
    have e₂ : (k : ℤ) - (r + 1 + 1) = k - (r + 1 : ℕ) - 1 := by push_cast; ring
    have e₃ : (k : ℤ) - 1 - (k - (r + 1 : ℕ) - 1) = (r + 1 : ℕ) := by ring
    have e₄ : (k : ℤ) - (k - (r + 1 : ℕ) - 1) = (r + 1 : ℕ) + 1 := by ring
    simp only [reduceRule, hnum, getInlMask_eq hrules, if_neg htest, setInlMask_eq _ hrules, hcount,
      if_neg hone, if_neg htwo, hnew, upChild, hall, if_pos hmore, memcpyRules, e₁, e₂, e₃, e₄,
      sub_self, hclose, hfree, Option.bind_eq_bind, Option.bind_some]
  · simp only [members_clearBitmap]
    have hne : ((members mask).erase pos).Nonempty := by
      rw [← Finset.card_pos, card_erase_owner hs hown]
      omega
    exact hne.mono hshares.subset
  · simp only [members_clearBitmap]
    exact hshares

/-- **`reduce_rule`** drops one next hop, if it has no slot of its own, if no other
position uses that slot or if the next position above has the same next hop. -/
theorem reduceRule_spec (hok : m.Succeeds) (hlevel : level < MAX_LEVEL)
    (hkids : c.children.length = (members c.external).card) (h : Packed c f)
    (hpos : pos ∈ members c.internal)
    (hfit : ¬ Owns c pos ∨ Screened c pos ∨ ∃ v, Reads c pos v ∧ SharesNext c pos v) :
    ∃ c' m', reduceRule m c pos level = some (c', m') ∧
      c'.internal = clearBitmap c.internal pos ∧ Edited c c' f m m' := by
  have hR : (members c.internal).Nonempty := ⟨pos, hpos⟩
  obtain ⟨mask, slots, pad, hrules, hs⟩ := h.exists_shares hpos
  by_cases hown : pos ∈ members mask
  · refine reduceRule_slot hok hlevel hkids hrules hs hown ?_
    rcases hfit with hno | hscreen | ⟨v, hv, hnext⟩
    · exact absurd ((owns_iff hrules).mpr hown) hno
    · exact .inl (hscreen _ (getInlMask_eq hrules))
    · obtain ⟨b, hb, hshared⟩ := isRedund_spec hrules hs hR pos v
      obtain rfl : b = true := Option.some.inj (hb.symm.trans hnext)
      rw [(h.reads_iff hpos).mp hv]
      exact .inr (hshared rfl)
  · have htest : ¬ testBitmap mask pos := fun h => hown (testBitmap_iff.mp h)
    have hshares := hs.drop_shared hown
    refine ⟨{ c with internal := clearBitmap c.internal pos }, m, ?_, rfl, rfl, rfl,
      ⟨mask :: slots, pad, hrules, .packed ?_ ?_⟩, rfl⟩
    · simp only [reduceRule, ruleNum_eq hrules (.packed hR hs), getInlMask_eq hrules,
        if_pos htest, Option.bind_eq_bind, Option.bind_some]
    · simp only [members_clearBitmap]
      obtain ⟨o, ho, -⟩ := hs.owned pos hpos
      exact ⟨o, hshares.subset ho⟩
    · simp only [members_clearBitmap]
      exact hshares

/-! ## The edits of the children -/

/-- The words in use, into a new block. -/
theorem copy_words (hrules : c.rules = used ++ pad) :
    ∃ pad', (if used.length ≠ 0 then
        memcpy (List.replicate (words (upRule used.length)) 0) 0 c.rules 0 used.length
      else some (List.replicate (words (upRule used.length)) 0)) =
      some (used ++ pad') := by
  have hroom := le_words used.length
  split_ifs with h
  · exact ⟨_, hrules ▸ memcpy_all _ pad (by rw [List.length_replicate]; exact hroom)⟩
  · rw [List.length_eq_zero_iff.mp (not_not.mp h)]
    exact ⟨_, rfl⟩

/-- **`extend_child`** adds a zero child and leaves the next hops. -/
theorem extendChild_spec (hok : m.Succeeds) (hlevel : level < MAX_LEVEL)
    (hkids : c.children.length = (members c.external).card) (h : Packed c f) (hpos : pos < 64) :
    ∃ c' m', extendChild m c level pos = some (c', nextChild c' pos, m') ∧
      c'.external = setBitmap c.external pos ∧ c'.internal = c.internal ∧
      c'.children = c.children.insertIdx (rank (members c.external) pos) .zero ∧
      Packed c' f ∧ m'.op = m.op := by
  set r := rank (members c.external) pos with hr
  obtain ⟨used, pad, hrules, hwords⟩ := h
  have hrank : countOnes (setBitmap c.external pos) pos = r := countOnes_setBitmap _ hpos
  have hle : r ≤ c.children.length := hkids ▸ rank_le_card _ _
  obtain ⟨ptr, m₁, hnew, hop₁⟩ :=
    newNode_spec hok (countChildren c.external + 1) used.length hlevel
  obtain ⟨m₂, hfree, hop₂⟩ := freeOld_spec m₁ c used.length (countChildren c.external) hlevel
  obtain ⟨pad', hcopy⟩ := copy_words hrules
  have hgap := copy_gap hle MbNode.zero
  rw [hkids, ← countChildren_eq_card] at hgap
  simp only [Option.bind_eq_bind] at hgap
  refine ⟨⟨setBitmap c.external pos, c.internal, ptr, used ++ pad',
    c.children.insertIdx r .zero⟩, m₂, ?_, rfl, rfl, rfl, ⟨used, pad', rfl, hwords⟩,
    hop₂.trans hop₁⟩
  simp only [extendChild, ruleNum_eq hrules hwords, hrank, hnew, memcpyRules, sub_self, hcopy, hgap,
    hfree, nextChild, Option.bind_eq_bind, Option.bind_some]

/-- **`reduce_child`** drops a child and leaves the next hops. -/
theorem reduceChild_spec (hok : m.Succeeds) (hlevel : level < MAX_LEVEL)
    (hkids : c.children.length = (members c.external).card) (h : Packed c f)
    (hset : pos ∈ members c.external) :
    ∃ c' m', reduceChild m c pos level = some (c', m') ∧
      c'.external = clearBitmap c.external pos ∧ c'.internal = c.internal ∧
      c'.children = c.children.eraseIdx (rank (members c.external) pos) ∧
      Packed c' f ∧ m'.op = m.op := by
  set r := rank (members c.external) pos with hr
  obtain ⟨used, pad, hrules, hwords⟩ := h
  have hlt : r < c.children.length := hkids ▸ rank_lt_card hset
  obtain ⟨ptr, m₁, hnew, hop₁⟩ :=
    newNode_spec hok (countChildren c.external - 1) used.length hlevel
  obtain ⟨m₂, hfree, hop₂⟩ := freeOld_spec m₁ c used.length (countChildren c.external) hlevel
  obtain ⟨pad', hcopy⟩ := copy_words hrules
  have hclose := copy_close hlt MbNode.zero
  rw [hkids, ← countChildren_eq_card] at hclose
  simp only [Option.bind_eq_bind] at hclose
  have hone : ¬ countChildren c.external < 1 := by
    rw [countChildren_eq_card, ← hkids]
    omega
  have hsome : guard (¬ countChildren c.external < 1) = some () := if_pos hone
  refine ⟨⟨clearBitmap c.external pos, c.internal, ptr, used ++ pad', c.children.eraseIdx r⟩, m₂,
    ?_, rfl, rfl, rfl, ⟨used, pad', rfl, hwords⟩, hop₂.trans hop₁⟩
  simp only [reduceChild, ruleNum_eq hrules hwords, countOnes_of_mem hset, ← hr, hsome, hnew,
    memcpyRules, sub_self, hcopy, hclose, hfree, Option.bind_eq_bind, Option.bind_some]

end CompressNhi

end TreeBitmap
