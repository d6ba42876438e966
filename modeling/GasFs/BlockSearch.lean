/-
# Searches that overlap: `gas_new_block`, lock by lock

`gas_new_block` reads the hint `s_bam_last` when it begins and again in the test of its loop, and it
stores it when it has a block, all of this outside the lock.  So other calls may move the hint while a
search runs.  `new_block_step` is one step of a call: the first read, one locked look at a map block,
the store of the hint, or the test of the loop.  `searches` runs any number of calls in any order.

A bit that is set stays set, so the two halves of what a call promises have an invariant each.
`Searches.Apart` keeps the blocks of different calls different as long as the bits of the map can be
numbered in 32 bits.  `Searches.Seen` knows the map blocks a call has found full.  A call that ends
its search has seen every block full, unless it ends early: the hint stands at the block it comes to
although it has not been round (`EndsEarly`).

The search looks at each map block under the lock, so a block found full is full until a block is
freed, and the operations here only allocate.  What is not protected is the hint.  The test
`i != s_bam_last` compares with a value that another call may have moved to the block the search
comes to next, and then the search ends before it has been round.

Two results.  With the hint unmoved at the test, `-ENOSPC` means that every map block was full when
it was looked at, and so it still is (`searches_kept`).  And two calls never return one block, with or
without that condition, as long as the bits of the map can be numbered.
-/
import GasFs.Itree.Call

namespace GasFs

/-! ## 1. The steps of one call

The places of a call are those of `Itree/Call.lean`. -/

/-- A call of `gas_new_block`: on its way, or returned. -/
inductive SearchPc where
  | on (at_ : NewBlockPc)
  | done (r : Except Errno Nat)

/-- The value of `s_bam_last`.  It is a number below the number of map blocks. -/
def Vol.last (v : Vol) : Nat := v.s_bam_last

@[simp] theorem Vol.hint_sbi (v : Vol) (i : Nat) : (v.hint i).sbi = v.sbi := rfl

@[simp] theorem Vol.hint_bam (v : Vol) (i : Nat) : (v.hint i).bam = v.bam := rfl

@[simp] theorem Vol.last_hint (v : Vol) (i : Nat) : (v.hint i).last = i % v.sbi.s_bam_blocks := rfl

/-- The next step of a call.  What happens under the lock is one step. -/
def new_block_step (v : Vol) : NewBlockPc → Vol × SearchPc
  | .enter => (v, .on (.look v.last))
  | .look i =>
    let bit := find_first_zero_bit (v.bam i) v.sbi.s_bits_per_block
    if bit < v.sbi.s_bits_per_block then
      ({ v with bam := write_bit v.bam i bit true },
        .on (.took i (bit + u32 (i * v.sbi.s_bits_per_block))))
    else (v, .on (.next i))
  | .next i =>
    let i := (i + 1) % v.sbi.s_bam_blocks
    (v, if i = v.last then .done (.error .ENOSPC) else .on (.look i))
  | .took i block => (v.hint i, .done (.ok block))

/-- The map block a call looks at. -/
def NewBlockPc.looks : NewBlockPc → Nat
  | .look _ => 1
  | _ => 0

variable {ι : Type} [DecidableEq ι]

/-- What all calls share, where each of them stands, and how many map blocks it has looked at; no
step reads this number.  The number is for the condition only. -/
structure Searches (ι : Type) where
  v : Vol
  pc : ι → SearchPc
  looked : ι → Nat

/-- The call `t` takes its next step. -/
def search_step (s : Searches ι) (t : ι) : Searches ι :=
  match s.pc t with
  | .done _ => s
  | .on at_ =>
    let r := new_block_step s.v at_
    ⟨r.1, Function.update s.pc t r.2, Function.update s.looked t (s.looked t + at_.looks)⟩

/-- No call has begun. -/
def searches_start (ι : Type) (v : Vol) : Searches ι := ⟨v, fun _ => .on .enter, fun _ => 0⟩

/-- The calls take their steps in the order of the schedule. -/
def searches (v : Vol) (schedule : List ι) : Searches ι :=
  schedule.foldl search_step (searches_start ι v)

/-- **A search about to end early**: the test of the loop will find the hint at the block the search
comes to, and it has looked at fewer blocks than there are.  The condition is on the state before
the test. -/
def EndsEarly (s : Searches ι) (t : ι) : Prop :=
  ∃ i, s.pc t = .on (.next i) ∧ (i + 1) % s.v.sbi.s_bam_blocks = s.v.last ∧
    s.looked t < s.v.sbi.s_bam_blocks

/-- No step of the run ends a search early. -/
def NoneEarly : Searches ι → List ι → Prop
  | _, [] => True
  | s, t :: ts => ¬EndsEarly s t ∧ NoneEarly (search_step s t) ts

theorem noneEarly_nil (s : Searches ι) : NoneEarly s [] := trivial

theorem noneEarly_cons {s : Searches ι} {t : ι} {ts : List ι} :
    NoneEarly s (t :: ts) ↔ ¬EndsEarly s t ∧ NoneEarly (search_step s t) ts :=
  ⟨fun h => h, fun h => h⟩

/-- All bits of a map block are set. -/
def MapBlockFull (v : Vol) (i : Nat) : Prop := ∀ bit < v.sbi.s_bits_per_block, v.bam i bit = true

/-! ## 2. What a step does to the map

Only the locked look writes it. -/

/-- A step sets a bit, or changes the map not at all.  The superblock stays, too. -/
structure MapGrows (v v' : Vol) : Prop where
  sbi : v'.sbi = v.sbi
  marks : ∀ i bit, v.bam i bit = true → v'.bam i bit = true

theorem MapGrows.full {v v' : Vol} (h : MapGrows v v') {i : Nat} (hf : MapBlockFull v i) :
    MapBlockFull v' i := by
  intro bit hbit
  rw [h.sbi] at hbit
  exact h.marks i bit (hf bit hbit)

theorem new_block_step_grows (v : Vol) (at_ : NewBlockPc) : MapGrows v (new_block_step v at_).1 := by
  cases at_ with
  | enter => exact ⟨rfl, fun _ _ h => h⟩
  | look i =>
    simp only [new_block_step]
    split
    · refine ⟨rfl, fun i' bit' h => ?_⟩
      dsimp only [write_bit]
      split
      · rfl
      · exact h
    · exact ⟨rfl, fun _ _ h => h⟩
  | next i => exact ⟨rfl, fun _ _ h => h⟩
  | took i b => exact ⟨rfl, fun _ _ h => h⟩

theorem search_step_grows (s : Searches ι) (t : ι) : MapGrows s.v (search_step s t).v := by
  rw [search_step]
  cases s.pc t with
  | done r => exact ⟨rfl, fun _ _ h => h⟩
  | on at_ => exact new_block_step_grows s.v at_

/-- The other calls stand where they stood. -/
theorem search_step_pc_of_ne (s : Searches ι) {t t' : ι} (h : t' ≠ t) :
    (search_step s t).pc t' = s.pc t' := by
  rw [search_step]
  cases s.pc t with
  | done r => rfl
  | on at_ => exact Function.update_of_ne h _ _

/-! ## 3. Blocks of different calls

The number of a block is made of two indices by a 32-bit product, so different bits have different
numbers only if the map is small enough. -/

/-- The block of a call that has found one. -/
def SearchPc.block : SearchPc → Option Nat
  | .on (.took _ block) => some block
  | .done (.ok block) => some block
  | _ => none

/-- The bits of the map can be numbered in 32 bits. -/
def Numbered32 (v : Vol) : Prop := v.sbi.s_bam_blocks * v.sbi.s_bits_per_block ≤ 4294967296

/-- Then different bits have different numbers. -/
theorem map_number_inj {v : Vol} (hv : Numbered32 v) {i i' bit bit' : Nat}
    (hi : i < v.sbi.s_bam_blocks) (hi' : i' < v.sbi.s_bam_blocks) (hb : bit < v.sbi.s_bits_per_block)
    (hb' : bit' < v.sbi.s_bits_per_block) (he : map_number v i bit = map_number v i' bit') :
    i = i' ∧ bit = bit' := by
  have hpos : 0 < v.sbi.s_bits_per_block := Nat.zero_lt_of_lt hb
  have hfit : ∀ j < v.sbi.s_bam_blocks, u32 (j * v.sbi.s_bits_per_block) =
      j * v.sbi.s_bits_per_block := fun j hj =>
    u32_of_lt (Nat.lt_of_lt_of_le (Nat.mul_lt_mul_of_pos_right hj hpos) hv)
  rw [map_number, map_number, hfit i hi, hfit i' hi'] at he
  have hdiv := congrArg (· / v.sbi.s_bits_per_block) he
  have hmod := congrArg (· % v.sbi.s_bits_per_block) he
  simp only [Nat.add_mul_div_right _ _ hpos, Nat.div_eq_of_lt hb, Nat.div_eq_of_lt hb',
    Nat.zero_add] at hdiv
  simp only [Nat.add_mul_mod_self_right, Nat.mod_eq_of_lt hb, Nat.mod_eq_of_lt hb'] at hmod
  exact ⟨hdiv, hmod⟩

/-- The block of a call is a marked bit of the map.  Its number is that of the map block times the
bits of a block, and the bit, in 32 bits. -/
def Marked (v : Vol) (b : Nat) : Prop :=
  ∃ i < v.sbi.s_bam_blocks, ∃ bit < v.sbi.s_bits_per_block,
    b = map_number v i bit ∧ v.bam i bit = true

theorem Marked.grows {v v' : Vol} {b : Nat} (h : Marked v b) (hg : MapGrows v v') : Marked v' b := by
  obtain ⟨i, hi, bit, hb, he, hm⟩ := h
  refine ⟨i, ?_, bit, ?_, ?_, hg.marks i bit hm⟩
  · rw [hg.sbi]
    exact hi
  · rw [hg.sbi]
    exact hb
  · rw [map_number, hg.sbi]
    exact he

/-- No two calls have the same block.  A call that has a block has set its bit, and a call that
finds a block found its bit clear. -/
structure Searches.Apart (s : Searches ι) : Prop where
  inside : ∀ t i, s.pc t = .on (.look i) → i < s.v.sbi.s_bam_blocks
  marked : ∀ t b, (s.pc t).block = some b → Marked s.v b
  apart : ∀ t t' b, (s.pc t).block = some b → (s.pc t').block = some b → t = t'

/-- A call keeps its block; a new one was not marked before. -/
theorem new_block_step_block {v : Vol} (hv : Numbered32 v) {at_ : NewBlockPc}
    (hi : ∀ i, at_ = .look i → i < v.sbi.s_bam_blocks) {b : Nat}
    (h : (new_block_step v at_).2.block = some b) :
    (SearchPc.on at_).block = some b ∨ Marked (new_block_step v at_).1 b ∧ ¬Marked v b := by
  cases at_ with
  | enter => exact absurd h (by simp [new_block_step, SearchPc.block])
  | look i =>
    have hin := hi i rfl
    simp only [new_block_step] at h ⊢
    split at h
    · next hlt =>
      rw [if_pos hlt]
      obtain rfl := Option.some.inj h
      refine Or.inr ⟨⟨i, hin, _, hlt, rfl, write_bit_same _ _ _ _⟩, ?_⟩
      rintro ⟨i', hi', bit', hb', he, hm⟩
      rcases find_first_zero_bit_spec (v.bam i) v.sbi.s_bits_per_block with ⟨-, hclear⟩ | ⟨hfull, -⟩
      · obtain ⟨rfl, rfl⟩ := map_number_inj hv hin hi' hlt hb' he
        rw [hclear] at hm
        exact Bool.false_ne_true hm
      · exact absurd hfull (Nat.ne_of_lt hlt)
    · exact absurd h (by simp [SearchPc.block])
  | next i =>
    simp only [new_block_step] at h
    split at h
    · exact absurd h (by simp [SearchPc.block])
    · exact absurd h (by simp [SearchPc.block])
  | took i block => exact Or.inl h

/-- A step keeps a search on the blocks of the map. -/
theorem new_block_step_inside {v : Vol} {at_ : NewBlockPc} {i : Nat}
    (h : (new_block_step v at_).2 = .on (.look i)) : i < v.sbi.s_bam_blocks := by
  cases at_ with
  | enter =>
    simp only [new_block_step, SearchPc.on.injEq, NewBlockPc.look.injEq] at h
    rw [← h]
    exact v.s_bam_last.isLt
  | look j =>
    simp only [new_block_step] at h
    split at h
    · exact absurd h (by simp)
    · exact absurd h (by simp)
  | next j =>
    simp only [new_block_step] at h
    split at h
    · exact absurd h (by simp)
    · simp only [SearchPc.on.injEq, NewBlockPc.look.injEq] at h
      rw [← h]
      exact Nat.mod_lt _ v.s_bam_last.pos
  | took j block => exact absurd h (by simp [new_block_step])

omit [DecidableEq ι] in
theorem Searches.Apart.start (v : Vol) : Searches.Apart (searches_start ι v) where
  inside t i h := absurd h (by simp [searches_start])
  marked t b h := absurd h (by simp [searches_start, SearchPc.block])
  apart t t' b h _ := absurd h (by simp [searches_start, SearchPc.block])

/-- **A step keeps the blocks apart.** -/
theorem Searches.Apart.step {s : Searches ι} (h : Searches.Apart s) (hv : Numbered32 s.v) (t : ι) :
    Searches.Apart (search_step s t) := by
  have hgrows := search_step_grows s t
  cases hpc : s.pc t with
  | done r =>
    rw [search_step, hpc]
    exact h
  | on at_ =>
    have hself : (search_step s t).pc t = (new_block_step s.v at_).2 := by
      simp only [search_step, hpc, Function.update_self]
    have hvol : (search_step s t).v = (new_block_step s.v at_).1 := by
      simp only [search_step, hpc]
    -- a block of the call is one it had, or a new one that no other call has
    have hnew : ∀ b, ((search_step s t).pc t).block = some b →
        (s.pc t).block = some b ∨ Marked (search_step s t).v b ∧ ¬Marked s.v b := by
      intro b hb
      rw [hself] at hb
      rw [hvol, hpc]
      refine new_block_step_block hv (fun i he => h.inside t i ?_) hb
      rw [hpc, he]
    have hother : ∀ t' ≠ t, ∀ b, ((search_step s t).pc t').block = some b →
        ((search_step s t).pc t).block = some b → False := by
      intro t' hne b hb hb'
      rw [search_step_pc_of_ne s hne] at hb
      rcases hnew b hb' with hold | ⟨-, hfresh⟩
      · exact hne (h.apart t' t b hb hold)
      · exact hfresh (h.marked t' b hb)
    refine ⟨fun t' i hi => ?_, fun t' b hb => ?_, fun t₁ t₂ b hb₁ hb₂ => ?_⟩
    · rw [hgrows.sbi]
      rcases eq_or_ne t' t with rfl | hne
      · rw [hself] at hi
        exact new_block_step_inside hi
      · rw [search_step_pc_of_ne s hne] at hi
        exact h.inside t' i hi
    · rcases eq_or_ne t' t with rfl | hne
      · rcases hnew b hb with hold | ⟨hm, -⟩
        · exact (h.marked t' b hold).grows hgrows
        · exact hm
      · rw [search_step_pc_of_ne s hne] at hb
        exact (h.marked t' b hb).grows hgrows
    · rcases eq_or_ne t₁ t with rfl | hne₁
      · rcases eq_or_ne t₂ t₁ with rfl | hne₂
        · rfl
        · exact (hother t₂ hne₂ b hb₂ hb₁).elim
      · rcases eq_or_ne t₂ t with rfl | hne₂
        · exact (hother t₁ hne₁ b hb₁ hb₂).elim
        · rw [search_step_pc_of_ne s hne₁] at hb₁
          rw [search_step_pc_of_ne s hne₂] at hb₂
          exact h.apart t₁ t₂ b hb₁ hb₂

/-! ## 4. What a call has seen

Counted from the map block where it began. -/

/-- Going round from anywhere, `n` steps come to every place. -/
theorem exists_round {n j : Nat} (start : Nat) (hj : j < n) : ∃ k < n, (start + k) % n = j := by
  have hn : 0 < n := Nat.zero_lt_of_lt hj
  have hle : start % n ≤ n := Nat.le_of_lt (Nat.mod_lt _ hn)
  refine ⟨(j + (n - start % n)) % n, Nat.mod_lt _ hn, ?_⟩
  calc (start + (j + (n - start % n)) % n) % n
      = (start % n + (j + (n - start % n))) % n := by rw [Nat.add_mod_mod, Nat.mod_add_mod]
    _ = (j + n) % n := by rw [show start % n + (j + (n - start % n)) = j + n by omega]
    _ = j := by rw [Nat.add_mod_right, Nat.mod_eq_of_lt hj]

/-- From the block `start` on, `looked` blocks were full.  Full blocks stay full, so it does not
matter when each was looked at. -/
def SeenFrom (v : Vol) (start looked : Nat) : Prop :=
  ∀ k < looked, MapBlockFull v ((start + k) % v.sbi.s_bam_blocks)

/-- A call that has looked at as many blocks as there are has seen the whole map full. -/
theorem SeenFrom.full {v : Vol} {start looked : Nat} (h : SeenFrom v start looked)
    (hall : v.sbi.s_bam_blocks ≤ looked) : v.BamFull := by
  intro j hj
  obtain ⟨k, hk, rfl⟩ := exists_round start hj
  exact h k (Nat.lt_of_lt_of_le hk hall)

theorem SeenFrom.grows {v v' : Vol} {start looked : Nat} (h : SeenFrom v start looked)
    (hg : MapGrows v v') : SeenFrom v' start looked := by
  intro k hk
  rw [hg.sbi]
  exact hg.full (h k hk)

theorem Vol.BamFull.grows {v v' : Vol} (h : v.BamFull) (hg : MapGrows v v') : v'.BamFull := by
  intro j hj
  rw [hg.sbi] at hj
  exact hg.full (h j hj)

/-- What a call knows about the map, having looked at `looked` blocks of it. -/
def SearchPc.Seen (v : Vol) (looked : Nat) : SearchPc → Prop
  | .on .enter => looked = 0
  | .on (.look i) => ∃ start, i = (start + looked) % v.sbi.s_bam_blocks ∧ SeenFrom v start looked
  | .on (.next i) => ∃ start, (i + 1) % v.sbi.s_bam_blocks = (start + looked) % v.sbi.s_bam_blocks ∧
      SeenFrom v start looked
  | .on (.took _ _) => True
  | .done (.ok _) => True
  | .done (.error _) => v.BamFull

/-- What a call knows stays true. -/
theorem SearchPc.Seen.grows {v v' : Vol} {looked : Nat} {pc : SearchPc} (h : pc.Seen v looked)
    (hg : MapGrows v v') : pc.Seen v' looked := by
  cases pc with
  | on at_ =>
    cases at_ with
    | enter => exact h
    | look i =>
      obtain ⟨start, hi, hseen⟩ := h
      exact ⟨start, by rw [hg.sbi]; exact hi, hseen.grows hg⟩
    | next i =>
      obtain ⟨start, hi, hseen⟩ := h
      exact ⟨start, by rw [hg.sbi]; exact hi, hseen.grows hg⟩
    | took i block => trivial
  | done r =>
    cases r with
    | error e => exact Vol.BamFull.grows h hg
    | ok b => trivial

/-- **A step of a call that does not end early.** -/
theorem new_block_step_seen {v : Vol} {looked : Nat} {at_ : NewBlockPc}
    (h : (SearchPc.on at_).Seen v looked)
    (hend : ∀ i, at_ = .next i → (i + 1) % v.sbi.s_bam_blocks = v.last →
      v.sbi.s_bam_blocks ≤ looked) :
    (new_block_step v at_).2.Seen (new_block_step v at_).1 (looked + at_.looks) := by
  cases at_ with
  | enter =>
    obtain rfl : looked = 0 := h
    refine ⟨v.s_bam_last, ?_, fun k hk => absurd hk (Nat.not_lt_zero k)⟩
    exact (Nat.mod_eq_of_lt v.s_bam_last.isLt).symm
  | look i =>
    obtain ⟨start, hi, hseen⟩ := h
    simp only [new_block_step]
    split
    · trivial
    · next hge =>
      refine ⟨start, ?_, fun k hk => ?_⟩
      · rw [hi, Nat.mod_add_mod, Nat.add_assoc]
        rfl
      · rcases Nat.lt_succ_iff_lt_or_eq.mp hk with hlt | rfl
        · exact hseen k hlt
        · rw [← hi]
          rcases find_first_zero_bit_spec (v.bam i) v.sbi.s_bits_per_block with ⟨hlt, -⟩ | ⟨-, hfull⟩
          · exact absurd hlt hge
          · exact hfull
  | next i =>
    obtain ⟨start, hi, hseen⟩ := h
    simp only [new_block_step]
    split
    · next hlast => exact hseen.full (hend i rfl hlast)
    · exact ⟨start, hi, hseen⟩
  | took i block => trivial

/-- Every call knows what its place promises. -/
def Searches.Seen (s : Searches ι) : Prop := ∀ t, (s.pc t).Seen s.v (s.looked t)

omit [DecidableEq ι] in
theorem Searches.Seen.start (v : Vol) : Searches.Seen (searches_start ι v) := fun _ => rfl

theorem Searches.Seen.step {s : Searches ι} (h : Searches.Seen s) {t : ι} (hend : ¬EndsEarly s t) :
    Searches.Seen (search_step s t) := by
  intro t'
  rcases eq_or_ne t' t with rfl | hne
  · have hseen := h t'
    cases hpc : s.pc t' with
    | done r =>
      simp only [search_step, hpc]
      rw [hpc] at hseen
      exact hseen
    | on at_ =>
      simp only [search_step, hpc, Function.update_self]
      rw [hpc] at hseen
      refine new_block_step_seen hseen fun i he hlast => ?_
      by_contra hfew
      exact hend ⟨i, by rw [hpc, he], hlast, Nat.not_le.mp hfew⟩
  · have hlooked : (search_step s t).looked t' = s.looked t' := by
      rw [search_step]
      cases s.pc t with
      | done r => rfl
      | on at_ => exact Function.update_of_ne hne _ _
    rw [search_step_pc_of_ne s hne, hlooked]
    exact (h t').grows (search_step_grows s t)

/-! ## 5. Whole runs

Both invariants along a schedule. -/

/-- What is claimed of a state: a call that reports a full disk has found one, and no two calls
return one block. -/
structure Searches.Kept (s : Searches ι) : Prop where
  full : ∀ t, s.pc t = .done (.error .ENOSPC) → s.v.BamFull
  apart : ∀ t t' b, s.pc t = .done (.ok b) → s.pc t' = .done (.ok b) → t = t'

omit [DecidableEq ι] in
theorem Searches.Kept.of_seen {s : Searches ι} (ha : s.Apart) (hs : s.Seen) : s.Kept where
  full t h := by
    have hseen := hs t
    rw [h] at hseen
    exact hseen
  apart t t' b h h' := ha.apart t t' b (by rw [h]; rfl) (by rw [h']; rfl)

/-- **The run lemma**: one induction on the schedule for both invariants. -/
theorem searches_inv : ∀ (schedule : List ι) (s : Searches ι), Numbered32 s.v → s.Apart → s.Seen →
    NoneEarly s schedule →
      (schedule.foldl search_step s).Apart ∧ (schedule.foldl search_step s).Seen := by
  intro schedule
  induction schedule with
  | nil => exact fun s _ ha hs _ => ⟨ha, hs⟩
  | cons t ts ih =>
    intro s hv ha hs hend
    obtain ⟨hnow, hrest⟩ := hend
    have hv' : Numbered32 (search_step s t).v := by
      rw [Numbered32, (search_step_grows s t).sbi]
      exact hv
    exact ih _ hv' (ha.step hv t) (hs.step hnow) hrest

theorem NoneEarly.left : ∀ {ts ts' : List ι} {s : Searches ι}, NoneEarly s (ts ++ ts') →
    NoneEarly s ts := by
  intro ts ts'
  induction ts with
  | nil => exact fun _ => trivial
  | cons t ts ih => exact fun h => ⟨h.1, ih h.2⟩

/-- **No spurious full disk**, in any state of a run in which no search ends early: a call that
returned `-ENOSPC` found every map block full, and no two calls return one block. -/
theorem searches_kept {v : Vol} (hv : Numbered32 v) {schedule : List ι}
    (hend : NoneEarly (searches_start ι v) schedule) :
    ∀ ts, ts <+: schedule → (searches v ts).Kept := by
  rintro ts ⟨ts', rfl⟩
  obtain ⟨ha, hs⟩ := searches_inv ts (searches_start ι v) hv (Searches.Apart.start v)
    (Searches.Seen.start v) hend.left
  exact Searches.Kept.of_seen ha hs

/-! ## 6. One call alone

The stepwise search is `gas_new_block`. -/

theorem search_step_self {s : Searches ι} {t : ι} {at_ : NewBlockPc} (h : s.pc t = .on at_) :
    (search_step s t).v = (new_block_step s.v at_).1 ∧
      (search_step s t).pc t = (new_block_step s.v at_).2 := by
  simp only [search_step, h, Function.update_self, and_self]

/-- What a call has returned, by the result of the loop of `gas_new_block`.  With a block the call
has stored the hint, and without one the volume is as it was. -/
def Answered (v : Vol) (r : Option (Fin v.sbi.s_bam_blocks × Nat)) (v' : Vol) (pc : SearchPc) : Prop :=
  match r with
  | some (i, bit) => v' = { v with bam := write_bit v.bam i bit true, s_bam_last := i } ∧
      pc = .done (.ok (map_number v i bit))
  | none => v' = v ∧ pc = .done (.error .ENOSPC)

/-- From the block `i` on, `round` blocks behind the hint, the call goes through the loop. -/
theorem search_loop (t : ι) : ∀ (fuel round : Nat) (s : Searches ι) (i : Fin s.v.sbi.s_bam_blocks),
    round < s.v.sbi.s_bam_blocks → s.v.sbi.s_bam_blocks ≤ round + fuel →
    i.val = (s.v.s_bam_last.val + round) % s.v.sbi.s_bam_blocks → s.pc t = .on (.look i) →
    ∃ k, Answered s.v (map_search s.v.bam s.v.sbi.s_bits_per_block s.v.s_bam_last fuel i)
      ((List.replicate k t).foldl search_step s).v
      (((List.replicate k t).foldl search_step s).pc t) := by
  intro fuel
  induction fuel with
  | zero => exact fun round s i hlt hle => absurd hlt (by omega)
  | succ fuel ih =>
    intro round s i hround hfuel hi hpc
    obtain ⟨hv1, hpc1⟩ := search_step_self hpc
    have hlast := next_map_eq_last_iff hround hi
    rw [new_block_step] at hv1 hpc1
    rw [map_search]
    split_ifs at hv1 hpc1 ⊢ with hbit hend
    · obtain ⟨hv2, hpc2⟩ := search_step_self hpc1
      refine ⟨2, ?_, hpc2⟩
      simp only [List.replicate, List.foldl_cons, List.foldl_nil]
      rw [hv2, hv1]
      have hhint : (⟨i % s.v.sbi.s_bam_blocks, Nat.mod_lt i s.v.s_bam_last.pos⟩ :
          Fin s.v.sbi.s_bam_blocks) = i := Fin.ext (Nat.mod_eq_of_lt i.isLt)
      simp only [new_block_step, Vol.hint, hhint]
    · obtain ⟨hv2, hpc2⟩ := search_step_self hpc1
      rw [hv1] at hv2 hpc2
      refine ⟨2, hv2, ?_⟩
      simp only [List.replicate, List.foldl_cons, List.foldl_nil]
      rw [hpc2, new_block_step]
      exact if_pos (congrArg Fin.val hend)
    · obtain ⟨hv2, hpc2⟩ := search_step_self hpc1
      rw [hv1] at hv2 hpc2
      have hnot : (i.val + 1) % s.v.sbi.s_bam_blocks ≠ s.v.last := fun he =>
        hend (Fin.ext he)
      rw [new_block_step] at hv2 hpc2
      dsimp only at hv2 hpc2
      rw [if_neg hnot] at hpc2
      have hmore : round + 1 ≠ s.v.sbi.s_bam_blocks := fun he => hend (hlast.mpr he)
      have hnext : (next_map i).val = (s.v.s_bam_last.val + (round + 1)) % s.v.sbi.s_bam_blocks := by
        simp only [next_map, hi, Nat.mod_add_mod]
        rw [Nat.add_assoc]
      generalize hs2 : search_step (search_step s t) t = s2 at hv2 hpc2
      obtain ⟨v2, pc2, looked2⟩ := s2
      dsimp only at hv2 hpc2
      subst hv2
      obtain ⟨k, hk⟩ := ih (round + 1) ⟨s.v, pc2, looked2⟩ (next_map i) (by dsimp only; omega)
        (by dsimp only; omega) hnext hpc2
      refine ⟨k + 2, ?_⟩
      rw [List.replicate_succ, List.replicate_succ, List.foldl_cons, List.foldl_cons, hs2]
      exact hk

/-- **A call that runs alone** does what `gas_new_block` does: the same map, the same hint, the same
result. -/
theorem search_alone (v : Vol) (t : ι) :
    ∃ k, (searches v (List.replicate k t)).v = (gas_new_block v).2.2 ∧
      (searches v (List.replicate k t)).pc t = .done
        (match gas_new_block v with
        | (block, none, _) => .ok block
        | (_, some e, _) => .error e) := by
  have hlast := v.s_bam_last.isLt
  obtain ⟨hv1, hpc1⟩ := @search_step_self ι _ (searches_start ι v) t .enter rfl
  generalize hs1 : search_step (searches_start ι v) t = s1 at hv1 hpc1
  obtain ⟨v1, pc1, looked1⟩ := s1
  dsimp only [new_block_step, searches_start] at hv1 hpc1
  subst hv1
  obtain ⟨k, hk⟩ := search_loop t v1.sbi.s_bam_blocks 0 ⟨v1, pc1, looked1⟩ v1.s_bam_last
    v1.s_bam_last.pos (by dsimp only; omega) (by rw [Nat.add_zero, Nat.mod_eq_of_lt hlast]) hpc1
  refine ⟨k + 1, ?_⟩
  rw [searches, List.replicate_succ, List.foldl_cons, hs1, gas_new_block]
  dsimp only at hk
  generalize map_search v1.bam v1.sbi.s_bits_per_block v1.s_bam_last v1.sbi.s_bam_blocks
    v1.s_bam_last = r at hk
  cases r with
  | none => exact hk
  | some r => exact hk

/-! ## 7. Two calls on two map blocks

One schedule in which a search is cut short, and one in which none is. -/

/-- A volume of 40000 blocks, with two map blocks.  The first is full, the second has the bits from
`used` to 7231 free. -/
def two_map_vol (used : Nat) : Vol where
  sbi := gas_super_block_fill ⟨MAGIC_NUMBER, 4096, 2, 1, 1, 40000, 64⟩
  s_blocksize_bits := 12
  s_bam_last := ⟨0, by decide⟩
  s_iam_last := ⟨0, by decide⟩
  bam := fun i bit => decide (i = 0 ∨ bit < used ∨ 7232 ≤ bit)
  iam := fun _ _ => true
  words := fun _ _ => 0
  env := ⟨fun _ => true, fun _ => true, fun _ _ => 0, fun _ => true, fun _ => 0, 0, 0⟩
  tick := 0

theorem two_map_first (used : Nat) : find_first_zero_bit ((two_map_vol used).bam 0) 32768 = 32768 :=
  find_first_zero_bit_full fun bit _ => by simp [two_map_vol]

theorem two_map_second {used : Nat} (h : used < 7232) :
    find_first_zero_bit ((two_map_vol used).bam 1) 32768 = used := by
  refine find_first_zero_bit_eq (by omega) ?_ fun j hj => ?_
  · simp [two_map_vol, h]
  · simp [two_map_vol, hj]

/-- The call `false` looks at the full block.  Then `true` runs, finds a bit in the other block and
moves the hint there, and `false` makes the test of its loop. -/
def cut_schedule : List Bool := [false, false, true, true, true, true, true, false]

/-- **A search cut short**: it returns `-ENOSPC` while the other map block has 7231 free bits. -/
theorem cut_search : (searches (two_map_vol 0) cut_schedule).pc false = .done (.error .ENOSPC) ∧
    ¬(searches (two_map_vol 0) cut_schedule).v.BamFull := by
  have hbits : (two_map_vol 0).sbi.s_bits_per_block = 32768 := rfl
  have hn : (two_map_vol 0).sbi.s_bam_blocks = 2 := rfl
  have hlast : (two_map_vol 0).last = 0 := rfl
  have hfirst := two_map_first 0
  have hsecond := two_map_second (by omega : 0 < 7232)
  constructor
  · simp [searches, cut_schedule, search_step, searches_start, new_block_step, hbits, hn, hlast,
      hfirst, hsecond]
  · intro hfull
    have hbam : (searches (two_map_vol 0) cut_schedule).v.bam =
        write_bit (two_map_vol 0).bam 1 0 true := by
      simp [searches, cut_schedule, search_step, searches_start, new_block_step, hbits, hn, hlast,
        hfirst, hsecond]
    have hsbi : (searches (two_map_vol 0) cut_schedule).v.sbi = (two_map_vol 0).sbi := by
      simp [searches, cut_schedule, search_step, searches_start, new_block_step, hbits, hn, hlast,
        hfirst, hsecond]
    have hbit := hfull 1 (by rw [hsbi, hn]; omega) 1 (by rw [hsbi, hbits]; omega)
    rw [hbam] at hbit
    exact absurd hbit (by decide)

/-- The two calls take turns until `false` has the bit; then `true` makes the test of its loop, before
`false` has stored the hint. -/
def turns_schedule : List Bool :=
  [false, true, false, true, false, true, false, true, true, false]

/-- One free bit and two calls that take turns: `false` gets the bit, and `true`, which looks at the
block next, finds the map full. -/
theorem two_calls_kept :
    (searches (two_map_vol 7231) turns_schedule).pc false = .done (.ok 39999) ∧
      (searches (two_map_vol 7231) turns_schedule).v.BamFull := by
  have hbits : (two_map_vol 7231).sbi.s_bits_per_block = 32768 := rfl
  have hn : (two_map_vol 7231).sbi.s_bam_blocks = 2 := rfl
  have hlast : (two_map_vol 7231).last = 0 := rfl
  have hfirst := two_map_first 7231
  have hsecond := two_map_second (by omega : 7231 < 7232)
  have hone : find_first_zero_bit (write_bit (two_map_vol 7231).bam 1 7231 true 1) 32768 = 32768 :=
    find_first_zero_bit_full fun bit _ => by
      simp only [two_map_vol, write_bit, true_and]
      split
      · rfl
      · rw [decide_eq_true_eq]
        omega
  have hend : NoneEarly (searches_start Bool (two_map_vol 7231)) turns_schedule := by
    simp [noneEarly_cons, noneEarly_nil, EndsEarly, turns_schedule, search_step, searches_start,
      new_block_step, NewBlockPc.looks, hbits, hn, hlast, hfirst, hsecond, hone]
  have hnum : Numbered32 (two_map_vol 7231) := by
    rw [Numbered32, hbits, hn]
    omega
  have hkept := searches_kept hnum hend _ List.prefix_rfl
  refine ⟨?_, hkept.full true ?_⟩
  · simp [searches, turns_schedule, search_step, searches_start, new_block_step,
      hbits, hn, hlast, hfirst, hsecond, hone]
    decide
  · simp [searches, turns_schedule, search_step, searches_start, new_block_step,
      hbits, hn, hlast, hfirst, hsecond, hone]
    rfl

end GasFs
