/-
# Any number of calls at once

Calls of `gas_get_block` with `create` on one inode run in any order of their steps
(`Itree/Call.lean`): `race` follows a schedule that names, for each step, the call that takes it.

The books of `Lib/Ledger.lean` have three kinds of owner here.  `outside` holds what was in use
before and not in this tree, the tree holds what its slots hold, and a call holds what it has taken
and not given away.  A step of a call is a turn of that call, or it hands its blocks over to the
tree, so the books stay exact (`RaceInv.step`, `RaceInv.run`).  When all calls have returned they
hold nothing, and all of them together were one step of the inode's owner (`RaceInv.ownStep`).

Every call has a block to map, and several may have the same one.  Then only one of them finds the
hole still there when it verifies its chain; the others give their blocks back, begin again, and
find the block of the first.  That all of them return the same number is read off the tree at the
end: a slot that is set never changes.

The schedule is a list of calls and may be anything.  A call that has returned takes no step when it
is named, so fairness plays no part in safety.
-/
import GasFs.Itree.Call
import GasFs.Accounts

namespace GasFs

open PtrTree

variable {ι : Type} [DecidableEq ι]

/-! ## 1. Interleaved calls

The state that is shared, and one place for each call. -/

/-- What all calls share, and where each of them stands. -/
structure Race (ι : Type) where
  c : Ctx
  pc : ι → Pc

/-- The call `t` takes its next step. -/
def race_step (blocks : ι → Nat) (s : Race ι) (t : ι) : Race ι :=
  let r := call_step (blocks t) s.c (s.pc t)
  ⟨r.1, Function.update s.pc t r.2⟩

/-- The calls take their steps in the order of the schedule; the call `t` is for the block
`blocks t`. -/
def race (blocks : ι → Nat) (c : Ctx) (schedule : List ι) : Race ι :=
  schedule.foldl (race_step blocks) ⟨c, fun _ => .reread⟩

/-- All calls have returned. -/
def Race.Over (s : Race ι) : Prop := ∀ t, ∃ r, s.pc t = .done r

/-! ## 2. Who holds what

Blocks that were in use before and do not belong to this tree are held by an owner that never
moves. -/

inductive Owner (ι : Type) where
  | outside
  | tree
  | call (t : ι)

/-- The blocks of an owner, after calls that began at `c0`. -/
def Race.held (c0 : Ctx) (s : Race ι) : Owner ι → Set Nat
  | .outside => {b | c0.v.inUse b = true ∧ ¬Holds c0 b}
  | .tree => {b | Holds s.c b}
  | .call t => {b | b ∈ (s.pc t).priv}

/-- The blocks marked in use. -/
def Race.mark (s : Race ι) : Set Nat := {b | s.c.v.inUse b = true}

/-- What holds while the calls run: the tree is sound and has only grown, blocks of others are as
they were, each call stands where its place says, and the books of all owners are exact. -/
structure RaceInv (blocks : ι → Nat) (c0 : Ctx) (s : Race ι) : Prop where
  map : MapStep c0 s.c
  ok : TreeOk s.c
  grows : ∀ q, shape.IsPath q → c0.val q ≠ 0 → s.c.val q = c0.val q
  words : ∀ b, c0.v.inUse b = true → ¬Holds c0 b → s.c.v.words b = c0.v.words b
  calls : ∀ t, (s.pc t).Ok s.c (block_to_path c0.v (blocks t))
  zone : ∀ t, ∀ b ∈ (s.pc t).priv, c0.v.InZone b
  nodup : ∀ t, (s.pc t).priv.Nodup
  sound : Ledger.Sound (s.held c0) s.mark
  exact : Ledger.Exact (s.held c0) s.mark

section
variable {blocks : ι → Nat} {c0 : Ctx} {s : Race ι}

omit [DecidableEq ι] in
theorem RaceInv.start (blocks : ι → Nat) (hc : TreeOk c0) :
    RaceInv blocks c0 ⟨c0, fun _ => .reread⟩ where
  map := MapStep.refl c0
  ok := hc
  grows _ _ _ := rfl
  words _ _ _ := rfl
  calls _ := trivial
  zone _ b hb := absurd hb List.not_mem_nil
  nodup _ := List.nodup_nil
  sound := by
    refine ⟨fun k b hb => ?_, fun k k' hne => ?_⟩
    · cases k with
      | outside => exact hb.1
      | tree => exact Holds.used hc hb
      | call t => exact absurd hb List.not_mem_nil
    · rw [Set.disjoint_left]
      intro b hb hb'
      cases k with
      | outside =>
        cases k' with
        | outside => exact hne rfl
        | tree => exact hb.2 hb'
        | call t => exact absurd hb' List.not_mem_nil
      | tree =>
        cases k' with
        | outside => exact hb'.2 hb
        | tree => exact hne rfl
        | call t => exact absurd hb' List.not_mem_nil
      | call t => exact absurd hb List.not_mem_nil
  exact b hb := by
    by_cases hh : Holds c0 b
    · exact ⟨.tree, hh⟩
    · exact ⟨.outside, hb, hh⟩

/-! ## 3. One step

The spec of a call's step, lifted to all owners. -/

omit [DecidableEq ι] in
/-- No two owners hold one block. -/
theorem RaceInv.apart (h : RaceInv blocks c0 s) (k k' : Owner ι) (hne : k ≠ k') {b : Nat}
    (hb : b ∈ s.held c0 k) (hb' : b ∈ s.held c0 k') : False :=
  Set.disjoint_left.mp (h.sound.apart k k' hne) hb hb'

omit [DecidableEq ι] in
/-- The blocks of one call. -/
theorem RaceInv.mine (h : RaceInv blocks c0 s) (t : ι) : Mine s.c (s.pc t).priv where
  nodup := h.nodup t
  zone b hb := (h.map.1.inZone b).mpr (h.zone t b hb)
  used b hb := h.sound.marked (.call t) hb
  apart b hb hh := h.apart (.call t) .tree (by simp) hb hh

omit [DecidableEq ι] in
/-- A step writes into no block of another owner. -/
theorem RaceInv.others_words (h : RaceInv blocks c0 s) {t : ι} {c' : Ctx}
    (hm : Moves s.c c' (s.pc t).priv) {k : Owner ι} (hk : k ≠ .call t) (hk' : k ≠ .tree) {b : Nat}
    (hb : b ∈ s.held c0 k) : c'.v.words b = s.c.v.words b :=
  hm.words b (h.sound.marked k hb) (fun ht => h.apart k (.call t) hk hb ht)
    fun hh => h.apart k .tree hk' hb hh

/-- **The step's effect on the books**: a turn of the call, or a handover to the tree.  The two
cases are those of `Effect`. -/
theorem RaceInv.books (h : RaceInv blocks c0 s) (t : ι) {c' : Ctx} {pc' : Pc}
    (heff : Effect s.c c' (s.pc t).priv pc'.priv) :
    Ledger.Sound (Race.held c0 ⟨c', Function.update s.pc t pc'⟩)
        (Race.mark ⟨c', Function.update s.pc t pc'⟩) ∧
      Ledger.Exact (Race.held c0 ⟨c', Function.update s.pc t pc'⟩)
        (Race.mark ⟨c', Function.update s.pc t pc'⟩) := by
  obtain ⟨s', hs'⟩ : ∃ s' : Race ι, s' = ⟨c', Function.update s.pc t pc'⟩ := ⟨_, rfl⟩
  have hcall : ∀ b, b ∈ s'.held c0 (.call t) ↔ b ∈ pc'.priv := fun b => by
    rw [hs']
    simp [Race.held]
  have hother : ∀ t', t' ≠ t → s'.held c0 (.call t') = s.held c0 (.call t') := fun t' hne => by
    rw [hs']
    simp [Race.held, hne]
  have htree : ∀ b, b ∈ s'.held c0 .tree ↔ Holds c' b := fun b => by rw [hs']; exact Iff.rfl
  have hmark : ∀ b, b ∈ s'.mark ↔ c'.v.inUse b = true := fun b => by rw [hs']; exact Iff.rfl
  have hout : s'.held c0 .outside = s.held c0 .outside := rfl
  rw [← hs']
  cases heff with
  | own same fresh used =>
    have turn : Ledger.Turn (.call t) (s.held c0) (s'.held c0) s.mark s'.mark := by
      refine ⟨fun k hk => ?_, fun b hb => ?_, fun b hb => ?_, fun b hb hn => ?_⟩
      · cases k with
        | outside => exact hout
        | tree =>
          ext b
          rw [htree]
          refine and_congr_right fun _ => exists_congr fun q => and_congr_right fun hq => ?_
          rw [same q hq]
        | call t' => exact hother t' fun he => hk (he ▸ rfl)
      · refine (fresh b ((hcall b).mp hb)).imp_right fun hf hu => ?_
        rw [show s.c.v.inUse b = true from hu] at hf
        exact Bool.false_ne_true hf.symm
      · exact (hmark b).mpr ((used b).mpr (Or.inl ((hcall b).mp hb)))
      · exact (hmark b).mpr ((used b).mpr (Or.inr ⟨hb, hn⟩))
    refine ⟨turn.sound h.sound, turn.exact (fun b hb => ?_) h.exact⟩
    rw [hcall]
    exact (used b).mp ((hmark b).mp hb)
  | graft held none used =>
    have hand : Ledger.Handover (.call t) .tree (s.held c0) (s'.held c0) := by
      refine ⟨fun k hk hk' => ?_, ?_, ?_⟩
      · cases k with
        | outside => exact hout
        | tree => exact absurd rfl hk'
        | call t' => exact hother t' fun he => hk (he ▸ rfl)
      · ext b
        rw [hcall, none]
        simp
      · ext b
        exact (htree b).trans (held b)
    have hm : s'.mark = s.mark := by
      ext b
      rw [hmark, used b]
      exact Iff.rfl
    rw [hm]
    exact ⟨hand.sound h.sound, hand.exact h.exact⟩

/-- **Every step keeps the invariant.** For the call that takes it by `call_step_spec`, for the
others because what they rely on stays true while the tree grows. -/
theorem RaceInv.step (h : RaceInv blocks c0 s) (t : ι) : RaceInv blocks c0 (race_step blocks s t) := by
  have hpath : ∀ t, block_to_path s.c.v (blocks t) = block_to_path c0.v (blocks t) := fun t =>
    block_to_path_step h.map.1 _
  have hst := call_step_spec (blocks t) h.ok (by rw [hpath]; exact h.calls t) (h.mine t)
  unfold race_step
  rw [hpath] at hst
  generalize call_step (blocks t) s.c (s.pc t) = r at hst
  obtain ⟨c', pc'⟩ := r
  obtain ⟨hmoves, hok, hnodup, hzone, heff⟩ := hst
  dsimp only at hmoves hok hnodup hzone heff ⊢
  have hleaf : ∀ t, block_to_path c0.v (blocks t) ≠ [] → IsLeaf (block_to_path c0.v (blocks t)) :=
    fun t hne => by
      rw [← hpath] at hne ⊢
      exact block_to_path_isLeaf h.ok.geometry hne
  obtain ⟨hsound, hexact⟩ := h.books t heff
  refine ⟨h.map.trans hmoves.map, hmoves.ok, fun q hq hne => ?_, fun b hb hn => ?_, ?_, ?_, ?_,
    hsound, hexact⟩
  · have he := h.grows q hq hne
    rw [hmoves.grows q hq (he ▸ hne), he]
  · have hw := h.others_words hmoves (k := .outside) (by simp) (by simp) ⟨hb, hn⟩
    rw [hw, h.words b hb hn]
  · refine (Function.forall_update_iff s.pc fun t pc =>
      pc.Ok c' (block_to_path c0.v (blocks t))).mpr ⟨hok, fun t' ht => ?_⟩
    exact (h.calls t').grow (hleaf t') hmoves.map.1.sbi hmoves.grows fun b hb =>
      h.others_words hmoves (k := .call t') (by simpa using ht) (by simp) hb
  · exact (Function.forall_update_iff s.pc fun _ pc => ∀ b ∈ pc.priv, c0.v.InZone b).mpr
      ⟨fun b hb => (h.map.1.inZone b).mp (hzone b hb), fun t' _ => h.zone t'⟩
  · exact (Function.forall_update_iff s.pc fun _ pc => pc.priv.Nodup).mpr
      ⟨hnodup, fun t' _ => h.nodup t'⟩

/-! ## 4. Whole schedules

By induction on the schedule. -/

/-- **The invariant holds after every schedule.** -/
theorem RaceInv.run (h : RaceInv blocks c0 s) (schedule : List ι) :
    RaceInv blocks c0 (schedule.foldl (race_step blocks) s) := by
  induction schedule generalizing s with
  | nil => exact h
  | cons t schedule ih => exact ih (h.step t)

theorem race_inv (hc : TreeOk c0) (blocks : ι → Nat) (schedule : List ι) :
    RaceInv blocks c0 (race blocks c0 schedule) := (RaceInv.start blocks hc).run schedule

omit [DecidableEq ι] in
/-- **Calls that have all returned** were, all together, one step of the owner of the inode: no call
holds a block any more, so what is marked anew is in the tree. -/
theorem RaceInv.ownStep (h : RaceInv blocks c0 s) (hover : s.Over) : OwnStep c0 s.c where
  vol := h.map.1
  mode := by
    obtain ⟨-, _, _, he⟩ := h.map
    rw [he]
  ino := by
    obtain ⟨-, _, _, he⟩ := h.map
    rw [he]
  ok := h.ok
  fresh b hb := by
    by_contra hn
    rw [not_or, Bool.not_eq_false] at hn
    exact h.apart .outside .tree (by simp) ⟨hn.2, hn.1⟩ hb
  keep b hb hn := ⟨h.sound.marked .outside ⟨hb, hn⟩, h.words b hb hn⟩
  exact _ b hb := by
    obtain ⟨k, hk⟩ := h.exact b hb
    cases k with
    | outside => exact Or.inr hk
    | tree => exact Or.inl hk
    | call t =>
      -- a call that has returned holds nothing
      obtain ⟨r, hr⟩ := hover t
      have hmem : b ∈ (s.pc t).priv := hk
      rw [hr] at hmem
      exact absurd hmem List.not_mem_nil

end

/-! ## 5. Racing calls on one file

The statement in terms of the file system. -/

section
variable {K : Type} [DecidableEq K] {d : Fs K} {a : K} {i : Inode}

/-- **Concurrent mapping of one file.**  When all calls have returned, the books are exact, no
pointer that was set has changed, and calls that succeeded for one block returned one number, the
one in the slot of that block. -/
theorem concurrent_get_block (hacc : d.Accounted) (hio : ∀ n, d.vol.env.bread n = true)
    (hk : d.inodes a = some i) (hb : has_blocks i.i_mode = true) (blocks : ι → Nat)
    (schedule : List ι) {s : Race ι} (hs : race blocks ⟨d.vol, i, 0⟩ schedule = s)
    (hover : s.Over) :
    (d.set a s.c).Accounted ∧
      (∀ k q, shape.IsPath q → d.slot k q ≠ 0 → (d.set a s.c).slot k q = d.slot k q) ∧
      (∀ t b, s.pc t = .done (.ok b) →
        b ≠ 0 ∧ (d.set a s.c).slot a (block_to_path d.vol (blocks t)) = b) ∧
      ∀ t t' b b', blocks t = blocks t' → s.pc t = .done (.ok b) → s.pc t' = .done (.ok b') →
        b = b' := by
  have hinv := race_inv (hacc.1.treeOk hk hb) blocks schedule
  rw [hs] at hinv
  have hown := hinv.ownStep hover
  have hk' : (d.set a s.c).inodes a = some s.c.inode := by simp [Fs.set]
  have hb' : has_blocks s.c.inode.i_mode = true := by rw [hown.mode]; exact hb
  have hslot : ∀ q, (d.set a s.c).slot a q = s.c.val q := (d.set a s.c).slot_of_blocks hk' hb'
  have hret : ∀ t b, s.pc t = .done (.ok b) →
      s.c.val (block_to_path d.vol (blocks t)) = b ∧ b ≠ 0 := fun t b ht => by
    have hcall := hinv.calls t
    rw [ht] at hcall
    exact hcall
  refine ⟨⟨hacc.1.own hk hb hown, hacc.2.own hacc.1 hk hb hown hio⟩, fun k q hq hne => ?_,
    fun t b ht => ?_, fun t t' b b' hbl ht ht' => ?_⟩
  · by_cases hka : k = a
    · subst hka
      rw [d.slot_of_blocks hk hb] at hne ⊢
      rw [hslot]
      exact hinv.grows q hq hne
    · exact hacc.1.others hk hb hown hka hq
  · rw [hslot]
    exact (hret t b ht).symm
  · rw [← (hret t b ht).1, ← (hret t' b' ht').1, hbl]

end

/-! ## 6. Two calls for one block

A schedule in which both find the hole, both allocate a block, and one of them has to give its block
back. -/

/-- The small volume with the blocks marked as told, and a file whose first slot holds `p`. -/
def hole_ctx (used : Nat → Bool) (p : Nat) : Ctx where
  v := { small_vol true 0 with bam := fun i bit => if i = 0 then used bit else true }
  inode := small_inode 2 S_IFREG 1 fun j => if j = 0 then p else 0
  nr := 0

/-- Both data blocks are free. -/
def both_free (bit : Nat) : Bool := !decide (bit = 4 ∨ bit = 5)

/-- A volume with a file without blocks. -/
def hole_fs : Fs Unit := ⟨(hole_ctx both_free 0).v, fun _ => some (hole_ctx both_free 0).inode⟩

theorem hole_slot (k : Unit) (q : List Nat) : hole_fs.slot k q = 0 := by
  rw [Fs.slot_of_blocks (i := (hole_ctx both_free 0).inode) rfl (by decide)]
  have h := val_no_pointers hole_fs.vol.words q
  simpa [Ctx.val, hole_ctx, small_inode] using h

theorem hole_accounted : hole_fs.Accounted := by
  have hz : ∀ b, hole_fs.vol.InZone b ↔ 4 ≤ b ∧ b < 6 := fun _ => Iff.rfl
  have hg : Geometry hole_fs.vol := { (small_geometry true 0).toGeometry with }
  have hu : ∀ b < 32768, hole_fs.vol.inUse b = both_free b := fun b hb => by
    rw [hg.inUse]
    simp only [hole_fs, hole_ctx, Nat.div_eq_of_lt hb, Nat.mod_eq_of_lt hb, if_true]
  refine ⟨⟨⟨hg, (small_geometry true 0).nblocks_le⟩,
    fun b hb hn => ?_, ?_, ?_, ?_⟩, fun b hb hub => ?_⟩
  · have hlt : b < 32768 := hb
    rw [hz] at hn
    simp only [hu b hlt, both_free, Bool.not_eq_true', decide_eq_false_iff_not]
    omega
  · intro k _ q _ _ _ hne
    exact absurd (hole_slot k q) hne
  · intro k q _ hne
    exact absurd (hole_slot k q) hne
  · intro k q _ hne
    exact absurd (hole_slot k q) hne
  · rw [hz] at hb
    rw [hu b (by omega), both_free, Bool.not_eq_true', decide_eq_false_iff_not] at hub
    omega

theorem hole_write_bit (used : Nat → Bool) (p bit : Nat) (x : Bool) :
    { hole_ctx used p with v := { (hole_ctx used p).v with
      bam := write_bit (hole_ctx used p).v.bam 0 bit x } } =
        hole_ctx (Function.update used bit x) p := by
  have h : write_bit (hole_ctx used p).v.bam 0 bit x =
      (hole_ctx (Function.update used bit x) p).v.bam := by
    funext i bit'
    simp only [write_bit, hole_ctx, Function.update_apply]
    by_cases hi : i = 0 <;> simp [hi]
  rw [h]
  rfl

/-- The chain of a call that found the hole, and the branch with one block for it. -/
def hole_chain : List Indirect := [⟨.idata 0, 0, none⟩]

def hole_branch (b : Nat) : List Indirect := [⟨.idata 0, b, none⟩]

theorem hole_look (used : Nat → Bool) (p bit : Nat) (hlt : bit < 32768)
    (hbit : used bit = false) (hset : ∀ bit' < bit, used bit' = true) (a : AllocBranch) :
    call_step 0 (hole_ctx used p) (.alloc a (.look 0)) =
      (hole_ctx (Function.update used bit true) p, .alloc a (.took 0 bit)) := by
  have h : find_first_zero_bit ((hole_ctx used p).v.bam 0) 32768 = bit :=
    find_first_zero_bit_eq hlt hbit hset
  have hbits : (hole_ctx used p).v.sbi.s_bits_per_block = 32768 := rfl
  simp only [call_step, hbits, h]
  rw [if_pos hlt, hole_write_bit]
  rfl

theorem hole_splice (used : Nat → Bool) :
    call_step 0 (hole_ctx used 0) (.splice hole_chain (hole_branch 4)) =
      (hole_ctx used 4, .done (.ok 4)) := by
  have hv : verify_chain (hole_ctx used 0) hole_chain.dropLast = true := rfl
  have hl : (hole_ctx used 0).load (.idata 0) = 0 := rfl
  have hs : ((hole_ctx used 0).store (.idata 0) 4).inode = (hole_ctx used 4).inode := by
    simp only [Ctx.store, hole_ctx, small_inode]
    congr 1
    funext j
    by_cases hj : j = 0 <;> simp [hj]
  simp only [call_step, hole_branch, List.headD_cons, hv, hl, hs, ne_eq, not_true_eq_false,
    Bool.true_eq_false, or_self, if_false]
  rfl

theorem hole_undo (used : Nat → Bool) :
    call_step 0 (hole_ctx used 4) (.undo (hole_branch 5) true) =
      (hole_ctx (Function.update used 5 false) 4, .undo [] true) := by
  have hg : Geometry (hole_ctx used 4).v := { (small_geometry true 0).toGeometry with }
  have hz : (hole_ctx used 4).v.InZone 5 := (by decide : 4 ≤ 5 ∧ 5 < 6)
  simp only [call_step, hole_branch, gas_free_block_eq hg.map, if_pos hz, hg.bits_per_block]
  rw [← hole_write_bit]

/-- Where the calls `true` and `false` stand. -/
def hole_at (p q : Pc) : Bool → Pc := fun t => if t then p else q

theorem hole_true {c c' : Ctx} {p p' : Pc} (h : call_step 0 c p = (c', p')) (q : Pc) :
    race_step (fun _ => 0) ⟨c, hole_at p q⟩ true = ⟨c', hole_at p' q⟩ := by
  have hpc : hole_at p q true = p := rfl
  simp only [race_step, hpc, h]
  congr 1
  funext t
  cases t <;> rfl

theorem hole_false {c c' : Ctx} {q q' : Pc} (h : call_step 0 c q = (c', q')) (p : Pc) :
    race_step (fun _ => 0) ⟨c, hole_at p q⟩ false = ⟨c', hole_at p q'⟩ := by
  have hpc : hole_at p q false = q := rfl
  simp only [race_step, hpc, h]
  congr 1
  funext t
  cases t <;> rfl

/-- Both calls read the hole, search, and take a block each; `true` stores first, so `false` gives
its block back and reads again. -/
def hole_schedule : List Bool :=
  [true, false, true, false, true, false, true, false, true, false, false, false, false, false]

theorem hole_race : ∃ c, race (fun _ => 0) (hole_ctx both_free 0) hole_schedule =
    ⟨c, hole_at (.done (.ok 4)) (.done (.ok 4))⟩ := by
  have hstart : (fun _ => Pc.reread) = hole_at .reread .reread := by
    funext t
    cases t <;> rfl
  have hread : call_step 0 (hole_ctx both_free 0) .reread =
      (hole_ctx both_free 0, .alloc ⟨hole_chain, [], 0, [0]⟩ .enter) := rfl
  have henter : call_step 0 (hole_ctx both_free 0) (.alloc ⟨hole_chain, [], 0, [0]⟩ .enter) =
      (hole_ctx both_free 0, .alloc ⟨hole_chain, [], 0, [0]⟩ (.look 0)) := rfl
  have hlook4 := hole_look both_free 0 4 (by decide) rfl (by decide)
    ⟨hole_chain, [], 0, [0]⟩
  have hlook5 := hole_look (Function.update both_free 4 true) 0 5 (by decide) rfl
    (by decide) ⟨hole_chain, [], 0, [0]⟩
  have htook4 : ∀ used, call_step 0 (hole_ctx used 0) (.alloc ⟨hole_chain, [], 0, [0]⟩ (.took 0 4)) =
      (hole_ctx used 0, .splice hole_chain (hole_branch 4)) := fun _ => rfl
  have htook5 : ∀ used, call_step 0 (hole_ctx used 0) (.alloc ⟨hole_chain, [], 0, [0]⟩ (.took 0 5)) =
      (hole_ctx used 0, .splice hole_chain (hole_branch 5)) := fun _ => rfl
  have hlost : ∀ used, call_step 0 (hole_ctx used 4) (.splice hole_chain (hole_branch 5)) =
      (hole_ctx used 4, .undo (hole_branch 5) true) := fun _ => rfl
  have hagain : ∀ used, call_step 0 (hole_ctx used 4) (.undo [] true) =
      (hole_ctx used 4, .reread) := fun _ => rfl
  have hfound : ∀ used, call_step 0 (hole_ctx used 4) .reread =
      (hole_ctx used 4, .level [⟨.idata 0, 4, none⟩] []) := fun _ => rfl
  have hdone : ∀ used, call_step 0 (hole_ctx used 4) (.level [⟨.idata 0, 4, none⟩] []) =
      (hole_ctx used 4, .done (.ok 4)) := fun _ => rfl
  simp only [race, hole_schedule, List.foldl_cons, List.foldl_nil, hstart]
  rw [hole_true hread, hole_false hread, hole_true henter, hole_false henter, hole_true hlook4,
    hole_false hlook5, hole_true (htook4 _), hole_false (htook5 _), hole_true (hole_splice _),
    hole_false (hlost _), hole_false (hole_undo _), hole_false (hagain _), hole_false (hfound _),
    hole_false (hdone _)]
  exact ⟨_, rfl⟩

/-- The two calls end with one block in the tree and the other free again. -/
theorem hole_race_accounted : ∃ s : Race Bool,
    race (fun _ => 0) (hole_ctx both_free 0) hole_schedule = s ∧ s.pc false = .done (.ok 4) ∧
      (hole_fs.set () s.c).Accounted ∧ (hole_fs.set () s.c).slot () [0] = 4 := by
  obtain ⟨c, hc⟩ := hole_race
  obtain ⟨h1, -, h3, -⟩ := concurrent_get_block hole_accounted (fun _ => rfl) (a := ())
    (i := (hole_ctx both_free 0).inode) rfl (by decide) (fun _ => 0) hole_schedule hc fun t => by
      cases t <;> exact ⟨_, rfl⟩
  have hpath : block_to_path hole_fs.vol 0 = [0] := by decide
  have h4 := (h3 true 4 rfl).2
  rw [show ((0 : Nat) : Int) = 0 from rfl, hpath] at h4
  exact ⟨_, hc, rfl, h1, h4⟩

end GasFs
