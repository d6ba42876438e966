/-
# One call of `gas_get_block`, lock by lock

While other calls run, the tree and the block map change between two steps of a call.  `Pc` is where
a call of `gas_get_block` with `create` stands between them, with its local variables, and
`call_step` its next step: one level of `get_branch`, one map block searched by `gas_new_block`, one
block linked by `alloc_branch`, the test and the store of `splice_branch`, one block given back.
The parts are those of `Itree.lean`.

A call owns the blocks it has taken from the map and not yet given away (`Pc.priv`).  `call_step_spec`
says what a step does to all that is shared: it writes into its own blocks only (`Moves`), and either
it turns its own blocks over, or it hangs all of them into the tree (`Effect`).

The locks of the source decide what a step is.  `bitmap_lock` covers the search of one map block and
the setting of the bit; `pointers_lock` covers the verification of the chain together with the store
that hangs a branch into the tree, and also one level of `get_branch`.  What happens between two
locks is on local variables, or in blocks that no other call can reach, so it is put to one of the
neighbouring steps.

What a call knows between its steps is `Pc.Ok`: the entries it has read stand for slots of the path,
the branch it has built is linked.  Other calls only add pointers to the tree, so this stays true
(`Pc.Ok.grow`), and no call has to know anything about the others but that.
-/
import GasFs.Itree.Own

namespace GasFs

open PtrTree

/-! ## 1. Where a call stands

One constructor for each place at which another call may run. -/

/-- Inside `gas_new_block`: at its beginning, before the search of a map block, behind a full one,
and with a block whose bit it has set. -/
inductive NewBlockPc where
  | enter
  | look (i : Nat)
  | next (i : Nat)
  | took (i block : Nat)

/-- The variables of `alloc_branch`: the entries filled, the parent, the offsets still to come. -/
structure AllocBranch where
  chain : List Indirect
  branch : List Indirect
  parent : Int
  offsets : List Nat

/-- Inside `gas_get_block`.  `undo` gives blocks back, before a retry or a failure; its flag says
which of the two. -/
inductive Pc where
  | reread
  | level (chain : List Indirect) (offsets : List Nat)
  | alloc (a : AllocBranch) (at_ : NewBlockPc)
  | splice (chain branch : List Indirect)
  | undo (branch : List Indirect) (again : Bool)
  | done (r : Except Errno Nat)

/-- `gas_get_block` calls `alloc_branch` for the last entry of `chain`. -/
def start_alloc (chain : List Indirect) (offsets : List Nat) : Pc :=
  .alloc ⟨chain, [], 0, offsets⟩ .enter

/-- The test of the loop in `alloc_branch`, and `splice_branch` behind it. -/
def AllocBranch.resume (a : AllocBranch) : Pc :=
  if a.offsets = [] then .splice a.chain a.branch else .alloc a .enter

/-- `alloc_branch` with the number `gas_new_block` returned. -/
def AllocBranch.got (a : AllocBranch) (c : Ctx) (block : Nat) : Ctx × Pc :=
  let nr := int32 block
  if nr = 0 then (c, .undo a.branch false)
  else
    let key := u32_of_int nr
    let bh := sector_of_int a.parent
    let o := a.offsets.headD 0
    let entry : Indirect :=
      if a.branch = [] then { a.chain.getLastD default with key } else ⟨.blk bh o, key, some bh⟩
    let words := if a.branch = [] then c.v.words else fill_block c.v.words bh o key
    ({ c with v := { c.v with words } },
      AllocBranch.resume ⟨a.chain, a.branch ++ [entry], nr, a.offsets.tail⟩)

/-- `s_bam_last = i`. -/
def Vol.hint (v : Vol) (i : Nat) : Vol :=
  { v with s_bam_last := ⟨i % v.sbi.s_bam_blocks, Nat.mod_lt i v.s_bam_last.pos⟩ }

/-- The next step of a call for the logical block `block`, with the variables that its place
carries. -/
def call_step (block : Nat) (c : Ctx) : Pc → Ctx × Pc
  | .reread =>
    match block_to_path c.v block with
    | [] => (c, .done (.error Errno.EIO))
    | o :: offsets =>
      let p := add_chain c none (.idata o)
      (c, if p.key = 0 then start_alloc [p] (o :: offsets) else .level [p] offsets)
  | .level chain [] => (c, .done (.ok (chain.getLastD default).key))
  | .level chain (o :: offsets) =>
    match sb_bread c.v with
    | (false, v) => ({ c with v := v }, .done (.error Errno.EIO))
    | (true, v) =>
      let c := { c with v := v }
      if verify_chain c chain = false then (c, .reread)
      else
        let p := chain.getLastD default
        let q := add_chain c (some p.key) (.blk p.key o)
        (c, if q.key = 0 then start_alloc (chain ++ [q]) (o :: offsets)
          else .level (chain ++ [q]) offsets)
  | .alloc a .enter => (c, .alloc a (.look c.v.s_bam_last))
  | .alloc a (.look i) =>
    let bit := find_first_zero_bit (c.v.bam i) c.v.sbi.s_bits_per_block
    if bit < c.v.sbi.s_bits_per_block then
      ({ c with v := { c.v with bam := write_bit c.v.bam i bit true } },
        .alloc a (.took i (bit + u32 (i * c.v.sbi.s_bits_per_block))))
    else (c, .alloc a (.next i))
  | .alloc a (.next i) =>
    let i := (i + 1) % c.v.sbi.s_bam_blocks
    (c, if i = c.v.s_bam_last then .undo a.branch false else .alloc a (.look i))
  | .alloc a (.took i block) => a.got { c with v := c.v.hint i } block
  | .splice chain branch =>
    let w := branch.headD default
    if verify_chain c chain.dropLast = false ∨ c.load w.p ≠ 0 then (c, .undo branch true)
    else
      let c := c.store w.p w.key
      ({ c with inode := { c.inode with i_ctime := c.v.now } },
        .done (.ok (branch.getLastD default).key))
  | .undo (q :: branch) again => ({ c with v := gas_free_block c.v q.key }, .undo branch again)
  | .undo [] again => (c, if again then .reread else .done (.error .ENOSPC))
  | .done r => (c, .done r)

/-- The blocks a call has taken and not given away.  The tree does not hold them, and no other call
has them. -/
def Pc.priv : Pc → List Nat
  | .alloc a (.took _ block) => a.branch.map Indirect.key ++ [block]
  | .alloc a _ => a.branch.map Indirect.key
  | .splice _ branch => branch.map Indirect.key
  | .undo branch _ => branch.map Indirect.key
  | _ => []

/-! ## 2. What is true where

The invariant of a call, and the shape of what is to be shown of its steps. -/

/-- The last entry of `chain` is the slot of the path `o` at that level. -/
structure At (c : Ctx) (o : List Nat) (chain : List Indirect) : Prop where
  pos : chain ≠ []
  le : chain.length ≤ o.length
  cell : IsCell c (o.take chain.length) (chain.getLastD default).p

/-- A branch for the end of the path that begins at the last entry of `chain`: its first entry
stands for that slot, and its blocks are linked along the path. -/
structure Branching (c : Ctx) (o : List Nat) (chain branch : List Indirect) : Prop where
  head : ∀ e, branch.head? = some e → e.p = (chain.getLastD default).p
  linked : Linked c.v.words (branch.map Indirect.key) (o.drop (chain.length - 1))

/-- What a call for the path `o` may rely on. -/
def Pc.Ok (c : Ctx) (o : List Nat) : Pc → Prop
  | .reread => True
  | .level chain offsets => At c o chain ∧ offsets = o.drop chain.length ∧
      (chain.getLastD default).key = c.val (o.take chain.length) ∧
      (chain.getLastD default).key ≠ 0
  | .alloc a at_ => At c o a.chain ∧ Branching c o a.chain a.branch ∧
      a.offsets = (o.drop (a.chain.length - 1)).drop a.branch.length ∧ a.offsets ≠ [] ∧
      (∀ b, (a.branch.map Indirect.key).getLast? = some b → a.parent = int32 b) ∧
      ∀ i, at_ = .look i → i < c.v.sbi.s_bam_blocks
  | .splice chain branch => At c o chain ∧ Branching c o chain branch ∧
      branch.length = (o.drop (chain.length - 1)).length
  | .undo _ _ => True
  | .done (.ok b) => c.val o = b ∧ b ≠ 0
  | .done (.error _) => True

/-- What a step does to the tree and to the blocks of others: no pointer that was set changes, and
of the blocks in use only those of the tree and its own, `mine`, are written. -/
structure Moves (c c' : Ctx) (mine : List Nat) : Prop where
  map : MapStep c c'
  ok : TreeOk c'
  grows : ∀ q, shape.IsPath q → c.val q ≠ 0 → c'.val q = c.val q
  words : ∀ b, c.v.inUse b = true → b ∉ mine → ¬Holds c b → c'.v.words b = c.v.words b

/-- What a step does to the block map: the call changes what it has taken and marks it so, or it
hangs all of it into the tree.  There is no third case; a branch is never hung in by halves. -/
inductive Effect (c c' : Ctx) (mine mine' : List Nat) : Prop
  | own (same : ∀ q, shape.IsPath q → c'.val q = c.val q)
      (fresh : ∀ b ∈ mine', b ∈ mine ∨ c.v.inUse b = false)
      (used : ∀ b, c'.v.inUse b = true ↔ b ∈ mine' ∨ c.v.inUse b = true ∧ b ∉ mine)
  | graft (held : ∀ b, Holds c' b ↔ Holds c b ∨ b ∈ mine) (none : mine' = [])
      (used : ∀ b, c'.v.inUse b = c.v.inUse b)

/-- The blocks a call has taken are different data blocks, marked, and not in the tree. -/
structure Mine (c : Ctx) (mine : List Nat) : Prop where
  nodup : mine.Nodup
  zone : ∀ b ∈ mine, c.v.InZone b
  used : ∀ b ∈ mine, c.v.inUse b = true
  apart : ∀ b ∈ mine, ¬Holds c b

/-- What is to be shown of a step. -/
structure Stepped (o : List Nat) (c : Ctx) (pc : Pc) (r : Ctx × Pc) : Prop where
  moves : Moves c r.1 pc.priv
  ok : r.2.Ok r.1 o
  nodup : r.2.priv.Nodup
  zone : ∀ b ∈ r.2.priv, c.v.InZone b
  effect : Effect c r.1 pc.priv r.2.priv

section

variable {c c' : Ctx} {o : List Nat} {pc pc' : Pc}

/-! ## 3. What others do to a call

Pointers that were null may become set, and nothing else happens to the slots a call has read. -/

/-- A slot stays where it is while the tree grows. -/
theorem IsCell.grow {q : List Nat} {p : Cell} (h : IsCell c q p) (hq : shape.IsPath q)
    (hg : ∀ q, shape.IsPath q → c.val q ≠ 0 → c'.val q = c.val q) : IsCell c' q p := by
  cases h with
  | root i => exact .root i
  | entry q j hne hv =>
    have he := hg q (hq.left hne) hv
    rw [← he] at hv ⊢
    exact .entry q j hne hv

theorem At.isPath {chain : List Indirect} (h : At c o chain) (ho : o ≠ [] → IsLeaf o) :
    IsLeaf o ∧ shape.IsPath (o.take chain.length) := by
  have hlen := List.length_pos_of_ne_nil h.pos
  have hleaf := ho (List.ne_nil_of_length_pos (Nat.lt_of_lt_of_le hlen h.le))
  exact ⟨hleaf, isPath_take hleaf.1 hlen h.le⟩

theorem At.grow {chain : List Indirect} (h : At c o chain) (ho : o ≠ [] → IsLeaf o)
    (hg : ∀ q, shape.IsPath q → c.val q ≠ 0 → c'.val q = c.val q) : At c' o chain :=
  ⟨h.pos, h.le, h.cell.grow (h.isPath ho).2 hg⟩

/-- **What a call relies on stays true** while pointers are only added and its own blocks are left
alone.  A pointer that it has read as null may be set by now; that is found by the verification. -/
theorem Pc.Ok.grow (h : pc.Ok c o) (ho : o ≠ [] → IsLeaf o) (hsbi : c'.v.sbi = c.v.sbi)
    (hg : ∀ q, shape.IsPath q → c.val q ≠ 0 → c'.val q = c.val q)
    (hw : ∀ b ∈ pc.priv, c'.v.words b = c.v.words b) : pc.Ok c' o := by
  cases pc with
  | reread => trivial
  | level chain offsets =>
    obtain ⟨hat, hoff, hkey, hne⟩ := h
    refine ⟨hat.grow ho hg, hoff, ?_, hne⟩
    rw [hg _ (hat.isPath ho).2 (hkey ▸ hne)]
    exact hkey
  | alloc a at_ =>
    obtain ⟨hat, hbr, hoff, hmore, hpar, hi⟩ := h
    refine ⟨hat.grow ho hg, ⟨hbr.head, hbr.linked.congr fun b hb => hw b ?_⟩, hoff, hmore, hpar, ?_⟩
    · cases at_ with
      | took i block => exact List.mem_append_left _ hb
      | enter => exact hb
      | look i => exact hb
      | next i => exact hb
    · rw [hsbi]
      exact hi
  | splice chain branch =>
    obtain ⟨hat, hbr, hlen⟩ := h
    exact ⟨hat.grow ho hg, ⟨hbr.head, hbr.linked.congr hw⟩, hlen⟩
  | undo branch again => trivial
  | done r =>
    cases r with
    | error e => trivial
    | ok b =>
      obtain ⟨hv, hne⟩ := h
      by_cases hnil : o = []
      · rw [hnil] at hv
        exact absurd hv.symm hne
      · rw [Pc.Ok, hg o (ho hnil).1 (hv ▸ hne)]
        exact ⟨hv, hne⟩

/-! ## 4. Steps that leave the tree alone

Most steps do. -/

/-- **A step that turns the call's own blocks over**: it may take free ones and give back its own,
and writes nowhere else. -/
theorem Stepped.own {r : Ctx × Pc} (hc : TreeOk c) (hm : Mine c pc.priv) (hmap : MapStep c r.1)
    (hval : ∀ q, shape.IsPath q → r.1.val q = c.val q)
    (hwords : ∀ b, c.v.inUse b = true → b ∉ pc.priv → r.1.v.words b = c.v.words b)
    (hfresh : ∀ b ∈ r.2.priv, b ∈ pc.priv ∨ c.v.InZone b ∧ c.v.inUse b = false)
    (hused : ∀ b, r.1.v.inUse b = true ↔ b ∈ r.2.priv ∨ c.v.inUse b = true ∧ b ∉ pc.priv)
    (hnodup : r.2.priv.Nodup) (hok : r.2.Ok r.1 o) : Stepped o c pc r where
  moves :=
    { map := hmap
      ok := hc.of_same hmap.1 hval
        (fun b hz hu => (hused b).mpr (Or.inr ⟨hu, fun hb => hz (hm.zone b hb)⟩))
        (fun b hb => (hused b).mpr (Or.inr ⟨hb.used hc, fun h => hm.apart b h hb⟩))
      grows := fun q hq _ => hval q hq
      words := fun b hu hb _ => hwords b hu hb }
  ok := hok
  nodup := hnodup
  zone b hb := (hfresh b hb).elim (hm.zone b) And.left
  effect := .own hval (fun b hb => (hfresh b hb).imp_right And.right) hused

/-- **A step that writes into the call's own blocks at most**, and takes and gives back none. -/
theorem Stepped.keep (hc : TreeOk c) (hm : Mine c pc.priv) (hmap : MapStep c c')
    (hval : ∀ q, shape.IsPath q → c'.val q = c.val q)
    (hwords : ∀ b, b ∉ pc.priv → c'.v.words b = c.v.words b)
    (huse : ∀ b, c'.v.inUse b = c.v.inUse b) (hpriv : pc'.priv = pc.priv) (hok : pc'.Ok c' o) :
    Stepped o c pc (c', pc') := by
  refine .own hc hm hmap hval (fun b _ => hwords b) (fun b hb => Or.inl (hpriv ▸ hb))
    (fun b => ?_) (hpriv ▸ hm.nodup) hok
  rw [huse, hpriv]
  constructor
  · intro hu
    by_cases hb : b ∈ pc.priv
    · exact Or.inl hb
    · exact Or.inr ⟨hu, hb⟩
  · rintro (hb | ⟨hu, -⟩)
    · exact hm.used b hb
    · exact hu

/-- A step that changes the hint and the request counter at most. -/
def Quiet (c c' : Ctx) : Prop :=
  ∃ hint t, c' = { c with v := { c.v with s_bam_last := hint, tick := t } }

theorem Quiet.refl (c : Ctx) : Quiet c c := ⟨_, _, rfl⟩

theorem Quiet.val (h : Quiet c c') (q : List Nat) : c'.val q = c.val q := by
  obtain ⟨_, _, rfl⟩ := h
  rfl

/-- **A quiet step** with the same blocks taken. -/
theorem Stepped.quiet (hc : TreeOk c) (hm : Mine c pc.priv) (hq : Quiet c c')
    (hpriv : pc'.priv = pc.priv) (hok : pc'.Ok c' o) : Stepped o c pc (c', pc') := by
  obtain ⟨hint, t, rfl⟩ := hq
  exact .keep hc hm (.of_vol ⟨_, hint, _, t, rfl⟩) (fun _ _ => rfl) (fun _ _ => rfl)
    (fun _ => rfl) hpriv hok

/-! ## 5. `get_branch`

One level at a time. -/

/-- The search of `alloc_branch` starts where the chain ends. -/
theorem start_alloc_ok {chain : List Indirect} {offsets : List Nat} (hat : At c o chain)
    (hoff : offsets = o.drop (chain.length - 1)) : (start_alloc chain offsets).Ok c o := by
  have hlen := List.length_pos_of_ne_nil hat.pos
  have hle := hat.le
  refine ⟨hat, ⟨fun e he => ?_, fun k b b' x hk => ?_⟩, ?_, ?_, fun b hb => ?_, fun i hi => ?_⟩
  · simp at he
  · simp at hk
  · rw [hoff, List.length_nil, List.drop_zero]
  · rw [hoff]
    exact List.ne_nil_of_length_pos (by rw [List.length_drop]; omega)
  · simp at hb
  · exact absurd hi (by simp)

/-- One more entry of the chain, in the block its last entry names. -/
theorem At.snoc {chain : List Indirect} (hat : At c o chain) {i : Nat}
    (hi : o[chain.length]? = some i)
    (hkey : (chain.getLastD default).key = c.val (o.take chain.length))
    (hne : (chain.getLastD default).key ≠ 0) :
    At c o (chain ++ [add_chain c (some (chain.getLastD default).key)
        (.blk (chain.getLastD default).key i)]) ∧
      (add_chain c (some (chain.getLastD default).key)
        (.blk (chain.getLastD default).key i)).key = c.val (o.take (chain.length + 1)) := by
  have hlt : chain.length < o.length := (List.getElem?_eq_some_iff.mp hi).1
  have hcell : IsCell c (o.take (chain.length + 1)) (.blk (chain.getLastD default).key i) := by
    have hpos := List.length_pos_of_ne_nil hat.pos
    rw [take_append_getElem hi, hkey]
    exact .entry _ i (List.ne_nil_of_length_pos (by rw [List.length_take]; omega)) (hkey ▸ hne)
  refine ⟨⟨by simp, ?_, ?_⟩, hcell.load⟩
  · rw [List.length_append, List.length_singleton]
    exact hlt
  · rw [List.length_append, List.length_singleton, List.getLastD_concat]
    exact hcell

/-- The pointer in the inode is read without a lock. -/
theorem reread_stepped {block : Nat} (hc : TreeOk c) (hm : Mine c Pc.reread.priv) :
    Stepped (block_to_path c.v block) c .reread (call_step block c .reread) := by
  cases hpath : block_to_path c.v block with
  | nil =>
    simp only [call_step, hpath]
    exact .quiet hc hm (Quiet.refl c) rfl trivial
  | cons i offsets =>
    simp only [call_step, hpath]
    have hat : At c (i :: offsets) [add_chain c none (.idata i)] := ⟨by simp, by simp, .root i⟩
    by_cases hz : (add_chain c none (.idata i)).key = 0
    · rw [if_pos hz]
      exact .quiet hc hm (Quiet.refl c) rfl (start_alloc_ok hat rfl)
    · rw [if_neg hz]
      exact .quiet hc hm (Quiet.refl c) rfl ⟨hat, rfl, rfl, hz⟩

/-- One level of `get_branch`. -/
theorem level_stepped {block : Nat} {chain : List Indirect} {offsets : List Nat} (hc : TreeOk c)
    (ho : o ≠ [] → IsLeaf o) (hok : (Pc.level chain offsets).Ok c o)
    (hm : Mine c (Pc.level chain offsets).priv) :
    Stepped o c (.level chain offsets) (call_step block c (.level chain offsets)) := by
  obtain ⟨hat, hoff, hkey, hne⟩ := id hok
  cases offsets with
  | nil =>
    refine .quiet hc hm (Quiet.refl c) rfl ?_
    rw [List.take_of_length_le (List.drop_eq_nil_iff.mp hoff.symm)] at hkey
    exact ⟨hkey.symm, hne⟩
  | cons i offsets =>
    obtain ⟨c1, hc1⟩ : ∃ c1 : Ctx, c1 = { c with v := { c.v with tick := c.v.tick + 1 } } :=
      ⟨_, rfl⟩
    have hq : Quiet c c1 := ⟨_, _, hc1⟩
    cases hr : c.v.env.bread c.v.tick with
    | false =>
      simp only [call_step, sb_bread, hr, ← hc1]
      exact .quiet hc hm hq rfl trivial
    | true =>
      simp only [call_step, sb_bread, hr, ← hc1]
      by_cases hver : verify_chain c1 chain = false
      · rw [if_pos hver]
        exact .quiet hc hm hq rfl trivial
      · rw [if_neg hver]
        have hi : o[chain.length]? = some i := by
          rw [← Nat.add_zero chain.length, ← List.getElem?_drop, ← hoff]
          rfl
        have hoff1 : offsets = o.drop (chain.length + 1) := by
          rw [← List.tail_drop, ← hoff, List.tail_cons]
        have hat1 := hat.grow ho (fun q _ _ => hq.val q)
        obtain ⟨hat2, hkey2⟩ := hat1.snoc hi (by rw [hq.val]; exact hkey) hne
        by_cases hz : (add_chain c1 (some (chain.getLastD default).key)
            (.blk (chain.getLastD default).key i)).key = 0
        · rw [if_pos hz]
          refine .quiet hc hm hq rfl (start_alloc_ok hat2 ?_)
          rw [hoff, List.length_append, List.length_singleton, Nat.add_sub_cancel]
        · rw [if_neg hz]
          refine .quiet hc hm hq rfl ⟨hat2, ?_, ?_, ?_⟩
          · rw [hoff1, List.length_append, List.length_singleton]
          · rw [List.getLastD_concat, List.length_append, List.length_singleton, hkey2]
          · rw [List.getLastD_concat]
            exact hz

/-! ## 6. `alloc_branch`

The search for a bit and the linking of the block it stands for. -/

/-- The values of a tree depend on its own blocks only. -/
theorem val_of_held (hi : c'.inode.blkaddr = c.inode.blkaddr)
    (hw : ∀ b, Holds c b → c'.v.words b = c.v.words b) {q : List Nat} (hq : shape.IsPath q) :
    c'.val q = c.val q := by
  rw [Ctx.val, hi]
  refine PtrTree.val_congr (S := shape) (fun r hr hne j _ => ?_) q hq
  exact congrFun (hw _ ⟨hne, r, hr, rfl⟩) j

/-- The hint is read without a lock. -/
theorem enter_stepped {block : Nat} {a : AllocBranch} (hc : TreeOk c)
    (hok : (Pc.alloc a .enter).Ok c o) (hm : Mine c (Pc.alloc a .enter).priv) :
    Stepped o c (.alloc a .enter) (call_step block c (.alloc a .enter)) := by
  obtain ⟨hat, hbr, hoff, hmore, hpar, -⟩ := hok
  refine .quiet hc hm (Quiet.refl c) rfl ⟨hat, hbr, hoff, hmore, hpar, ?_⟩
  intro i hi
  cases hi
  exact c.v.s_bam_last.isLt

/-- The map after one bit was set. -/
theorem inUse_write_bit (v : Vol) (b b' : Nat) :
    ({ v with
      bam := write_bit v.bam (b' / v.sbi.s_bits_per_block) (b' % v.sbi.s_bits_per_block) true } :
        Vol).inUse b = true ↔ b = b' ∨ v.inUse b = true := by
  simp only [Vol.inUse, write_bit_block]
  by_cases h : b = b'
  · simp [h]
  · simp [h]

/-- The search of a map block, and the bit set in it. -/
theorem look_stepped {block i : Nat} {a : AllocBranch} (hc : TreeOk c)
    (ho : o ≠ [] → IsLeaf o) (hok : (Pc.alloc a (.look i)).Ok c o)
    (hm : Mine c (Pc.alloc a (.look i)).priv) :
    Stepped o c (.alloc a (.look i)) (call_step block c (.alloc a (.look i))) := by
  obtain ⟨hat, hbr, hoff, hmore, hpar, hi⟩ := hok
  have hg := hc.geometry.map
  simp only [call_step]
  rcases find_first_zero_bit_spec (c.v.bam i) c.v.sbi.s_bits_per_block with ⟨hlt, hclear⟩ | ⟨he, -⟩
  · rw [if_pos hlt]
    generalize find_first_zero_bit (c.v.bam i) c.v.sbi.s_bits_per_block = bit at hlt hclear ⊢
    obtain ⟨hnum, hz, hfree⟩ := clear_bit_block hg hc.padded (hi i rfl) hlt hclear
    obtain ⟨hdiv, hmod⟩ := split_block (i := i) hlt
    rw [map_number] at hnum
    rw [hnum]
    generalize i * c.v.sbi.s_bits_per_block + bit = x at hz hfree hdiv hmod ⊢
    subst hdiv hmod
    have hx : x ∉ a.branch.map Indirect.key := fun hx => by
      rw [hm.used x hx] at hfree
      exact Bool.false_ne_true hfree.symm
    have hok' : (Pc.alloc a (.took (x / c.v.sbi.s_bits_per_block) x)).Ok c o := ⟨hat, hbr, hoff, hmore, hpar, by simp⟩
    refine .own hc hm (.of_vol ⟨_, _, _, _, rfl⟩) (fun _ _ => rfl) (fun _ _ _ => rfl)
      (fun b hb => ?_) (fun b => ?_) ?_ (hok'.grow ho rfl (fun _ _ _ => rfl) fun _ _ => rfl)
    · rcases List.mem_append.mp hb with hb | hb
      · exact Or.inl hb
      · rw [List.mem_singleton.mp hb]
        exact Or.inr ⟨hz, hfree⟩
    · simp only [inUse_write_bit, Pc.priv, List.mem_append, List.mem_singleton]
      have := hm.used b
      tauto
    · exact List.nodup_append.mpr ⟨hm.nodup, List.nodup_singleton x, by
        rintro b hb y hy rfl
        exact hx (List.mem_singleton.mp hy ▸ hb)⟩
  · rw [if_neg (by omega)]
    refine .quiet hc hm (Quiet.refl c) rfl ⟨hat, hbr, hoff, hmore, hpar, ?_⟩
    intro j hj
    exact absurd hj (by simp)

/-- On to the next map block. -/
theorem next_stepped {block i : Nat} {a : AllocBranch} (hc : TreeOk c)
    (hok : (Pc.alloc a (.next i)).Ok c o) (hm : Mine c (Pc.alloc a (.next i)).priv) :
    Stepped o c (.alloc a (.next i)) (call_step block c (.alloc a (.next i))) := by
  obtain ⟨hat, hbr, hoff, hmore, hpar, -⟩ := hok
  simp only [call_step]
  split_ifs
  · exact .quiet hc hm (Quiet.refl c) rfl trivial
  · refine .quiet hc hm (Quiet.refl c) rfl ⟨hat, hbr, hoff, hmore, hpar, ?_⟩
    intro j hj
    cases hj
    exact Nat.mod_lt _ c.v.s_bam_last.pos

section Took

variable {i x y : Nat} {chain branch : List Indirect} {parent : Int} {os : List Nat}

/-- The next offset of the path, and the offsets behind it. -/
theorem next_offset (hoff : y :: os = (o.drop (chain.length - 1)).drop branch.length) :
    (o.drop (chain.length - 1))[branch.length]? = some y ∧
      os = (o.drop (chain.length - 1)).drop (branch.length + 1) := by
  constructor
  · rw [← Nat.add_zero branch.length, ← List.getElem?_drop, ← hoff]
    rfl
  · rw [← List.tail_drop, ← hoff, List.tail_cons]

/-- The block taken is the next entry of the branch.  Its number is stored in the block before it, or
it is the first block, and the entry stands for the slot where the chain ends. -/
theorem took_links (block : Nat) (hc : TreeOk c)
    (hok : (Pc.alloc ⟨chain, branch, parent, y :: os⟩ (.took i x)).Ok c o)
    (hm : Mine c (Pc.alloc ⟨chain, branch, parent, y :: os⟩ (.took i x)).priv) :
    ∃ (entry : Indirect) (words : Nat → Nat → Nat),
      call_step block c (.alloc ⟨chain, branch, parent, y :: os⟩ (.took i x)) =
        ({ c with v := { c.v.hint i with words } },
          AllocBranch.resume ⟨chain, branch ++ [entry], int32 x, os⟩) ∧
      entry.key = x ∧
      (∀ e, (branch ++ [entry]).head? = some e → e.p = (chain.getLastD default).p) ∧
      (∀ b, b ∉ branch.map Indirect.key → words b = c.v.words b) ∧
      Linked words (branch.map Indirect.key ++ [x]) (o.drop (chain.length - 1)) := by
  obtain ⟨-, hbr, hoff, -, hpar, -⟩ := hok
  dsimp only at hbr hoff hpar
  have hpriv : x ∈ (Pc.alloc ⟨chain, branch, parent, y :: os⟩ (.took i x)).priv := by simp [Pc.priv]
  obtain ⟨h1, h2⟩ := hc.geometry.map.zone_int (hm.zone x hpriv)
  have hnodup := (List.nodup_append.mp hm.nodup).1
  cases hl : (branch.map Indirect.key).getLast? with
  | none =>
    obtain rfl : branch = [] := by simpa using hl
    refine ⟨{ chain.getLastD default with key := x }, c.v.words, ?_, rfl, ?_, fun _ _ => rfl, ?_⟩
    · simp only [call_step, AllocBranch.got, if_neg h1, h2, if_true, List.tail_cons, Vol.hint]
    · intro e he
      cases he
      rfl
    · intro k b b' z hk hk'
      simp at hk'
  | some p =>
    have hp : p ∈ branch.map Indirect.key := List.mem_of_getLast? hl
    have h3 := hc.geometry.zone_sector (hm.zone p (List.mem_append_left _ hp))
    have hne : branch ≠ [] := by
      rintro rfl
      simp at hp
    refine ⟨⟨.blk p y, x, some p⟩, fill_block c.v.words p y x, ?_, rfl, ?_, fun b hb => ?_, ?_⟩
    · rw [← hpar p hl] at h3
      simp only [call_step, AllocBranch.got, if_neg h1, h2, h3, if_neg hne, List.tail_cons,
        List.headD_cons, Vol.hint]
    · rw [List.head?_append_of_ne_nil _ hne]
      exact hbr.head
    · funext j
      have hbp : b ≠ p := fun h => hb (h ▸ hp)
      simp [fill_block, hbp]
    · exact hbr.linked.snoc hnodup hl (by rw [List.length_map]; exact (next_offset hoff).1) x

/-- Behind the last offset the call goes on to `splice_branch`, else to the next block. -/
theorem resume_ok {c' : Ctx} {entry : Indirect} (hat : At c' o chain)
    (hbr : Branching c' o chain (branch ++ [entry])) (hkey : entry.key = x)
    (hoff : y :: os = (o.drop (chain.length - 1)).drop branch.length) :
    (AllocBranch.resume ⟨chain, branch ++ [entry], int32 x, os⟩).Ok c' o := by
  obtain ⟨hy, hos⟩ := next_offset hoff
  unfold AllocBranch.resume
  by_cases hend : os = []
  · rw [if_pos hend]
    refine ⟨hat, hbr, ?_⟩
    have hlt := (List.getElem?_eq_some_iff.mp hy).1
    have hge := List.drop_eq_nil_iff.mp (hos.symm.trans hend)
    dsimp only
    rw [List.length_append, List.length_singleton]
    omega
  · rw [if_neg hend]
    refine ⟨hat, hbr, ?_, hend, fun b hb => ?_, fun j hj => absurd hj (by simp)⟩
    · rw [List.length_append, List.length_singleton]
      exact hos
    · rw [List.map_append, List.map_singleton, hkey, List.getLast?_concat] at hb
      rw [Option.some.inj hb]

/-- **A block taken is linked** into the one before it, which is the call's own. -/
theorem took_stepped {block : Nat} {a : AllocBranch} (hc : TreeOk c) (ho : o ≠ [] → IsLeaf o)
    (hok : (Pc.alloc a (.took i x)).Ok c o) (hm : Mine c (Pc.alloc a (.took i x)).priv) :
    Stepped o c (.alloc a (.took i x)) (call_step block c (.alloc a (.took i x))) := by
  obtain ⟨chain, branch, parent, offsets⟩ := a
  obtain ⟨y, os, rfl⟩ := List.exists_cons_of_ne_nil hok.2.2.2.1
  obtain ⟨entry, words, hgot, hkey, hhead, hwords, hlink⟩ := took_links block hc hok hm
  obtain ⟨hat, -, hoff, -, -, -⟩ := hok
  dsimp only at hat hoff
  obtain ⟨c', hc'⟩ : ∃ c' : Ctx, c' = { c with v := { c.v.hint i with words } } := ⟨_, rfl⟩
  have hmap : MapStep c c' := by
    rw [hc']
    exact .of_vol ⟨_, _, _, _, rfl⟩
  have hkeys : (branch ++ [entry]).map Indirect.key = branch.map Indirect.key ++ [x] := by
    rw [List.map_append, List.map_singleton, hkey]
  have hout : ∀ b, b ∉ (Pc.alloc ⟨chain, branch, parent, y :: os⟩ (.took i x)).priv →
      c'.v.words b = c.v.words b := fun b hb => by
    rw [hc']
    exact hwords b fun h => hb (List.mem_append_left _ h)
  have hval : ∀ q, shape.IsPath q → c'.val q = c.val q := fun q hq =>
    val_of_held (by rw [hc']) (fun b hb => hout b fun h => hm.apart b h hb) hq
  have hbr : Branching c' o chain (branch ++ [entry]) := ⟨hhead, by rw [hkeys, hc']; exact hlink⟩
  rw [hgot, ← hc']
  refine .keep hc hm hmap hval hout (fun b => by rw [hc']; rfl) ?_
    (resume_ok (hat.grow ho fun q hq _ => hval q hq) hbr hkey hoff)
  unfold AllocBranch.resume
  split_ifs <;> exact hkeys

end Took

/-! ## 7. `splice_branch` and giving blocks back

The last lock.  Either the tree takes all the blocks of a call, or it takes none and they go back to
the map. -/

/-- The map as if the blocks `nb` had not been taken. -/
def Ctx.untake (c : Ctx) (nb : List Nat) : Ctx :=
  { c with v := { c.v with
      bam := fun i bit => c.v.bam i bit && !decide (i * c.v.sbi.s_bits_per_block + bit ∈ nb) } }

theorem inUse_untake (c : Ctx) (nb : List Nat) (b : Nat) :
    (c.untake nb).v.inUse b = true ↔ c.v.inUse b = true ∧ b ∉ nb := by
  have hb := Nat.div_add_mod' b c.v.sbi.s_bits_per_block
  simp only [Ctx.untake, Vol.inUse, hb, Bool.and_eq_true, Bool.not_eq_true', decide_eq_false_iff_not]

/-- **A linked branch of own blocks** is one that was just allocated, if one forgets that the map
knows of it.  So the lemma on grafts for a call that runs alone serves here too. -/
theorem Mine.grown {nb os : List Nat} (hm : Mine c nb) (hlen : nb.length = os.length)
    (hlink : Linked c.v.words nb os) : Grown (c.untake nb).v nb os c.v where
  step := ⟨_, _, _, _, rfl⟩
  length := hlen
  nodup := hm.nodup
  fresh b hb := ⟨hm.zone b hb, by
    rw [← Bool.not_eq_true, inUse_untake]
    exact fun h => h.2 hb⟩
  marks b := by
    rw [inUse_untake]
    have := hm.used b
    tauto
  words _ _ := rfl
  link := hlink

theorem Mine.untake_ok {nb : List Nat} (hm : Mine c nb) (hc : TreeOk c) : TreeOk (c.untake nb) :=
  hc.of_same ⟨_, _, _, _, rfl⟩ (fun _ _ => rfl)
    (fun b hz hu => (inUse_untake c nb b).mpr ⟨hu, fun hb => hz (hm.zone b hb)⟩)
    (fun b hb => (inUse_untake c nb b).mpr ⟨hb.used hc, fun h => hm.apart b h hb⟩)

/-- **A step that hangs the call's own blocks into the tree.** -/
theorem Stepped.graft {m : Nat} (hc : TreeOk c) (hm : Mine c pc.priv) (ho : IsLeaf o)
    (hg : Graft o m pc.priv (c.untake pc.priv) c') (hpriv : pc'.priv = []) (hok : pc'.Ok c' o) :
    Stepped o c pc (c', pc') where
  moves :=
    { map := by
        obtain ⟨bam, hint, words, tick, he⟩ := hg.vol
        exact ⟨⟨bam, hint, words, tick, he⟩, hg.inode⟩
      ok := hg.treeOk (hm.untake_ok hc)
      grows := fun q hq hne => hg.val_of_ne ho.1 hq hne
      words := fun b _ hb hn => hg.words b hb fun q hq hne he => hn ⟨he ▸ hne, q, hq, he⟩ }
  ok := hok
  nodup := hpriv ▸ List.nodup_nil
  zone b hb := by
    rw [show (c', pc').2.priv = [] from hpriv] at hb
    exact absurd hb List.not_mem_nil
  effect := by
    refine .graft (fun b => ⟨?_, ?_⟩) hpriv fun b => ?_
    · rintro ⟨hne, q, hq, he⟩
      rcases hg.val_cases hq with ⟨h1, -⟩ | ⟨-, -, -, h1⟩
      · exact Or.inl ⟨hne, q, hq, h1.symm.trans he⟩
      · rw [show c'.val q = b from he] at h1
        exact Or.inr (List.mem_of_getElem? h1)
    · rintro (⟨hne, q, hq, he⟩ | hb)
      · exact ⟨hne, q, hq, (hg.val_of_ne ho.1 hq (he.trans_ne hne)).trans he⟩
      · have := (hm.zone b hb).1
        have hpos := hc.geometry.data_pos
        exact ⟨by omega, hg.held ho hb⟩
    · rw [Bool.eq_iff_iff]
      refine (hg.marks b).trans ?_
      rw [inUse_untake]
      have := hm.used b
      tauto

/-- **The verified store hangs all of the call's blocks into the tree**, or the call goes on to give
them back.  If the verification succeeds, the slot of the hole is still null, since its pointer was
read as null and is compared. -/
theorem splice_stepped {block : Nat} {chain branch : List Indirect} (hc : TreeOk c)
    (ho : o ≠ [] → IsLeaf o) (hok : (Pc.splice chain branch).Ok c o)
    (hm : Mine c (Pc.splice chain branch).priv) :
    Stepped o c (.splice chain branch) (call_step block c (.splice chain branch)) := by
  obtain ⟨hat, hbr, hlen⟩ := hok
  obtain ⟨hleaf, hpath⟩ := hat.isPath ho
  have hpos := List.length_pos_of_ne_nil hat.pos
  have hle := hat.le
  simp only [call_step]
  split_ifs with hcond
  · exact .quiet hc hm (Quiet.refl c) rfl trivial
  · rw [not_or, not_not] at hcond
    obtain ⟨w, rest, rfl⟩ : ∃ w rest, branch = w :: rest := by
      refine List.exists_cons_of_ne_nil (List.ne_nil_of_length_pos ?_)
      rw [hlen, List.length_drop]
      omega
    have hw : w.p = (chain.getLastD default).p := hbr.head w rfl
    rw [List.headD_cons] at hcond ⊢
    rw [hw] at hcond ⊢
    have hz : c.val (o.take chain.length) = 0 := by
      rw [← hat.cell.load]
      exact hcond.2
    have hgraft := graft_of_store (hm.untake_ok hc).sound hleaf hpos hle
      (hat.grow ho fun _ _ _ => rfl : At (c.untake _) o chain).cell hz
      (hm.grown (by rw [Pc.priv, List.length_map]; exact hlen) hbr.linked) rfl
      (c.store (chain.getLastD default).p w.key).v.now
    have hlast : (w.key :: rest.map Indirect.key).getLast? =
        some ((w :: rest).getLastD default).key := by
      rw [← List.map_cons, List.getLast?_map, List.getLastD_eq_getLast?]
      rfl
    refine .graft hc hm hleaf hgraft rfl ⟨?_, fun h => ?_⟩
    · refine (hgraft.val_path hleaf.1).trans ?_
      rw [List.getD_eq_getElem?_getD, ← List.getLast?_eq_getElem?]
      exact congrArg (fun x => x.getD 0) hlast
    · have hz := (hm.zone _ (List.mem_of_getLast? hlast)).1
      have hdata := hc.geometry.data_pos
      omega

/-- A block is given back. -/
theorem undo_stepped {block : Nat} {branch : List Indirect} {again : Bool} (hc : TreeOk c)
    (hm : Mine c (Pc.undo branch again).priv) :
    Stepped o c (.undo branch again) (call_step block c (.undo branch again)) := by
  cases branch with
  | nil =>
    refine .quiet hc hm (Quiet.refl c) ?_ ?_
    · cases again <;> rfl
    · cases again <;> trivial
  | cons q branch =>
    have hg := hc.geometry.toGeometry
    have hqz := hm.zone q.key (List.mem_cons_self ..)
    have hq : q.key ∉ branch.map Indirect.key := (List.nodup_cons.mp hm.nodup).1
    have hwords := gas_free_block_words c.v q.key
    have hval : ∀ r, ({ c with v := gas_free_block c.v q.key } : Ctx).val r = c.val r := fun r => by
      simp only [Ctx.val, hwords]
    refine .own hc hm (.of_vol (gas_free_block_blockStep _ _)) (fun r _ => hval r)
      (fun b _ _ => congrFun hwords b) (fun b hb => Or.inl (List.mem_cons_of_mem _ hb))
      (fun b => ?_) (List.nodup_cons.mp hm.nodup).2 trivial
    simp only [call_step, inUse_gas_free_block hg.map, Pc.priv, List.map_cons, List.mem_cons]
    have := hm.used b
    by_cases hb : b = q.key
    · subst hb
      simp [hqz, hq]
    · simp only [hb, false_and, if_false, false_or]
      have hm' : b ∈ branch.map Indirect.key → c.v.inUse b = true := fun h =>
        hm.used b (List.mem_cons_of_mem _ h)
      tauto

/-- **What a step of a call does.** One case for each place, in the order of the sections above. -/
theorem call_step_spec (block : Nat) (hc : TreeOk c) (hok : pc.Ok c (block_to_path c.v block))
    (hm : Mine c pc.priv) : Stepped (block_to_path c.v block) c pc (call_step block c pc) := by
  have ho : block_to_path c.v block ≠ [] → IsLeaf (block_to_path c.v block) :=
    fun h => block_to_path_isLeaf hc.geometry h
  cases pc with
  | reread => exact reread_stepped hc hm
  | level chain offsets => exact level_stepped hc ho hok hm
  | alloc a at_ =>
    cases at_ with
    | enter => exact enter_stepped hc hok hm
    | look i => exact look_stepped hc ho hok hm
    | next i => exact next_stepped hc hok hm
    | took i x => exact took_stepped hc ho hok hm
  | splice chain branch => exact splice_stepped hc ho hok hm
  | undo branch again => exact undo_stepped hc hm
  | done r => exact .quiet hc hm (Quiet.refl c) rfl hok

end

end GasFs
