/-
# The blocks a truncation frees

The functions that give blocks back, once more, with every call of `gas_free_block` recorded in a
log: `Logged` is a context with the block numbers passed to `gas_free_block` so far.  Forgetting the
log gives back the functions of `Itree.lean` (`gas_truncate_inode_logged_erase`).

`Writes s s'` says what a step from `s` to `s'` logs: blocks that were in use, each of them once,
and afterwards exactly these are free.  It composes, so it is proved for the freeing of one cell and
carried along the ranges, the recursion and the loops (`gas_truncate_inode_logged_writes`).

The log answers a question that the final map cannot: whether a block is freed twice on the way.  A
second call of `gas_free_block` on the same number leaves the same map, but in between another
process could have been given the block.  That the blocks logged are without repetitions, and were
in use when the truncation began, excludes this.

The functions with a log are a copy of those without it, with one line more.  So that they cannot
drift apart, each has an erasure lemma, and only the last one is used from outside.
-/
import GasFs.Itree.Truncate

namespace GasFs

open PtrTree

/-! ## 1. The functions with a log

The log is written at the one place where a block is given back. -/

/-- A context and the blocks passed to `gas_free_block` so far.  The newest number stands last. -/
structure Logged where
  c : Ctx
  log : List Nat

/-- `gas_free_block`, recorded. -/
def Logged.free_block (s : Logged) (nr : Nat) : Logged :=
  ⟨{ s.c with v := gas_free_block s.c.v nr }, s.log ++ [nr]⟩

/-- A step that frees nothing.  The log goes with the context from one function to the next. -/
def Logged.at_ (s : Logged) (c : Ctx) : Logged := ⟨c, s.log⟩

/-- `free_data`.  The range of cells is given as a list, as in the function without a log. -/
def free_data_logged (s : Logged) (ps : List Cell) : Logged :=
  ps.foldl (fun s p =>
    let nr := s.c.load p
    if nr = 0 then s
    else (s.at_ (s.c.store p 0)).free_block nr) s

/-- `free_branches`.  The recursion is the same, on the depth. -/
def free_branches_logged : Nat → Logged → List Cell → Logged
  | 0, s, ps => free_data_logged s ps
  | depth + 1, s, ps =>
    ps.foldl (fun s p =>
      let nr := s.c.load p
      if nr = 0 then s
      else
        let c := s.c.store p 0
        match sb_bread c.v with
        | (false, v) => s.at_ { c with v := v }
        | (true, v) =>
          (free_branches_logged depth (s.at_ { c with v := v })
            (block_cells nr 0 (INDIRCOUNT c.v))).free_block nr) s

/-- The loop that clears the ends of the indirect blocks on the shared branch. -/
def clear_ends_logged (chain : List Indirect) (n : Nat) : Nat → Logged → Logged
  | 0, s => s
  | i + 1, s =>
    let q := chain.getD (i + 1) default
    clear_ends_logged chain n i (free_branches_logged (n - 1 - (i + 1)) s (cells_behind s.c.v q))

/-- One round of the loop at `do_indirects`. -/
def indirect_logged (s : Logged) (first_whole : Nat) : Logged :=
  let s := s.at_ (s.c.store .nr (s.c.load (.idata (DIRECT + first_whole))))
  if s.c.nr = 0 then s
  else free_branches_logged (first_whole + 1)
    (s.at_ (s.c.store (.idata (DIRECT + first_whole)) 0)) [.nr]

/-- The loop at `do_indirects`. -/
def do_indirects_logged (first_whole : Nat) (s : Logged) : Logged :=
  (List.range' first_whole (DEPTH - 1 - first_whole)).foldl indirect_logged s

/-- `gas_truncate_inode`. -/
def gas_truncate_inode_logged (s : Logged) : Logged :=
  let iblock := first_cut_block s.c.v s.c.inode.i_size
  let s := s.at_ (block_truncate_page s.c)
  match block_to_path s.c.v iblock with
  | [] => s
  | [o] =>
    let s := do_indirects_logged 0 (free_data_logged s (idata_cells o DIRECT))
    s.at_ { s.c with inode := { s.c.inode with i_mtime := s.c.v.now, i_ctime := s.c.v.now } }
  | o :: offsets =>
    let n := (o :: offsets).length
    let f := find_shared s.c (o :: offsets)
    let s := s.at_ f.c
    let s := if f.c.nr = 0 then s else free_branches_logged (n - 1 - f.at_) s [.nr]
    let s := clear_ends_logged f.chain n f.at_ s
    let s := do_indirects_logged (o + 1 - DIRECT) s
    s.at_ { s.c with inode := { s.c.inode with i_mtime := s.c.v.now, i_ctime := s.c.v.now } }

/-! ## 2. Forgetting the log

Function by function, the context is the same. -/

/-- One round of the loops of `free_branches_logged`.  As without a log, both functions are folds of
it. -/
def free_cell_logged (d : Nat) (s : Logged) (p : Cell) : Logged :=
  let nr := s.c.load p
  if nr = 0 then s
  else
    let c := s.c.store p 0
    match d with
    | 0 => (s.at_ c).free_block nr
    | d + 1 =>
      match sb_bread c.v with
      | (false, v) => s.at_ { c with v := v }
      | (true, v) =>
        (free_branches_logged d (s.at_ { c with v := v })
          (block_cells nr 0 (INDIRCOUNT c.v))).free_block nr

theorem free_branches_logged_eq_foldl (d : Nat) (s : Logged) (ps : List Cell) :
    free_branches_logged d s ps = ps.foldl (free_cell_logged d) s := by
  cases d <;> rfl

theorem foldl_free_cell_logged_erase {d : Nat}
    (hone : ∀ s p, (free_cell_logged d s p).c = free_cell d s.c p) (ps : List Cell) :
    ∀ s : Logged, (ps.foldl (free_cell_logged d) s).c = ps.foldl (free_cell d) s.c := by
  induction ps with
  | nil => intro s; rfl
  | cons p ps ih =>
    intro s
    rw [List.foldl_cons, List.foldl_cons, ih, hone]

theorem free_branches_logged_erase : ∀ (d : Nat) (s : Logged) (ps : List Cell),
    (free_branches_logged d s ps).c = free_branches d s.c ps
  | 0, s, ps => by
    rw [free_branches_logged_eq_foldl, free_branches_eq_foldl]
    refine foldl_free_cell_logged_erase (fun s p => ?_) ps s
    unfold free_cell_logged free_cell
    dsimp only
    split <;> rfl
  | d + 1, s, ps => by
    rw [free_branches_logged_eq_foldl, free_branches_eq_foldl]
    refine foldl_free_cell_logged_erase (fun s p => ?_) ps s
    unfold free_cell_logged free_cell
    dsimp only
    split
    · rfl
    · unfold sb_bread
      cases (s.c.store p 0).v.env.bread (s.c.store p 0).v.tick with
      | false => rfl
      | true =>
        dsimp only [Logged.free_block]
        rw [free_branches_logged_erase d]
        rfl

theorem free_data_logged_erase (s : Logged) (ps : List Cell) :
    (free_data_logged s ps).c = free_data s.c ps := free_branches_logged_erase 0 s ps

theorem free_cell_logged_erase (d : Nat) (s : Logged) (p : Cell) :
    (free_cell_logged d s p).c = free_cell d s.c p := by
  have h := free_branches_logged_erase d s [p]
  rwa [free_branches_logged_eq_foldl, free_branches_eq_foldl] at h

theorem clear_ends_logged_erase (chain : List Indirect) (n : Nat) : ∀ (i : Nat) (s : Logged),
    (clear_ends_logged chain n i s).c = clear_ends chain n i s.c
  | 0, _ => rfl
  | i + 1, s => by
    rw [clear_ends_logged, clear_ends_logged_erase chain n i, free_branches_logged_erase]
    rfl

theorem indirect_logged_erase (s : Logged) (w : Nat) :
    (indirect_logged s w).c =
      (let c := s.c.store .nr (s.c.load (.idata (DIRECT + w)))
       if c.nr = 0 then c
       else free_branches (w + 1) (c.store (.idata (DIRECT + w)) 0) [.nr]) := by
  unfold indirect_logged
  dsimp only [Logged.at_]
  split
  · rfl
  · rw [free_branches_logged_erase]

theorem do_indirects_logged_erase (w : Nat) (s : Logged) :
    (do_indirects_logged w s).c = do_indirects w s.c := by
  unfold do_indirects_logged do_indirects
  generalize List.range' w (DEPTH - 1 - w) = ws
  induction ws generalizing s with
  | nil => rfl
  | cons w ws ih =>
    rw [List.foldl_cons, List.foldl_cons, ih, indirect_logged_erase]

/-- **Without the log it is `gas_truncate_inode`.** So what is proved of the marks in the log is
about the function of the source. -/
theorem gas_truncate_inode_logged_erase (s : Logged) :
    (gas_truncate_inode_logged s).c = gas_truncate_inode s.c := by
  unfold gas_truncate_inode_logged gas_truncate_inode
  dsimp only [Logged.at_]
  cases block_to_path (block_truncate_page s.c).v (first_cut_block s.c.v s.c.inode.i_size) with
  | nil => rfl
  | cons o offsets =>
    cases offsets with
    | nil =>
      dsimp only
      rw [do_indirects_logged_erase, free_data_logged_erase]
    | cons o' r =>
      dsimp only
      rw [do_indirects_logged_erase, clear_ends_logged_erase, apply_ite Logged.c,
        free_branches_logged_erase]

/-! ## 3. What is logged

`Writes` relates the log to the marks before and after. -/

/-- The step logs blocks that were in use, each of them once, and afterwards these are free.  The
blocks are named by the numbers passed to `gas_free_block`, and the marks are those of the map. -/
def Writes (s s' : Logged) : Prop :=
  ∃ l, s'.log = s.log ++ l ∧ l.Nodup ∧ (∀ b ∈ l, s.c.v.inUse b = true) ∧
    ∀ b, s'.c.v.inUse b = true ↔ s.c.v.inUse b = true ∧ b ∉ l

theorem Writes.none {s : Logged} {c : Ctx} (h : ∀ b, c.v.inUse b = s.c.v.inUse b) :
    Writes s (s.at_ c) :=
  ⟨[], (List.append_nil _).symm, List.nodup_nil, by simp, fun b => by
    rw [show (s.at_ c).c.v.inUse b = s.c.v.inUse b from h b]
    simp⟩

theorem Writes.refl (s : Logged) : Writes s s := Writes.none fun _ => rfl

theorem Writes.trans {s s' s'' : Logged} (h : Writes s s') (h' : Writes s' s'') : Writes s s'' := by
  obtain ⟨l, h1, h2, h3, h4⟩ := h
  obtain ⟨l', h1', h2', h3', h4'⟩ := h'
  refine ⟨l ++ l', by rw [h1', h1, List.append_assoc], ?_, ?_, fun b => ?_⟩
  · refine List.nodup_append.mpr ⟨h2, h2', ?_⟩
    rintro b hb _ hb' rfl
    exact ((h4 b).mp (h3' b hb')).2 hb
  · intro b hb
    rcases List.mem_append.mp hb with hb | hb
    · exact h3 b hb
    · exact ((h4 b).mp (h3' b hb)).1
  · rw [h4', h4, List.mem_append, not_or, and_assoc]

/-- A block in use that is freed: the log has one number more, and its bit is clear.  Outside the
data zone the number would be refused, and nothing would be freed. -/
theorem Writes.free_block {s : Logged} (hg : Geometry s.c.v) {nr : Nat} (hz : s.c.v.InZone nr)
    (hu : s.c.v.inUse nr = true) : Writes s (s.free_block nr) := by
  refine ⟨[nr], rfl, List.nodup_singleton _, ?_, fun b => ?_⟩
  · intro b hb
    rw [List.mem_singleton.mp hb]
    exact hu
  · have h := inUse_gas_free_block hg.map b nr
    rw [if_congr (and_iff_left hz) rfl rfl] at h
    rw [show (s.free_block nr).c.v.inUse b = _ from h, List.mem_singleton]
    by_cases hb : b = nr
    · simp [hb]
    · simp [hb]

/-- Every block below the cells is in use.  In a sound tree this holds of every range, since what it
holds is marked. -/
def BelowUsed (c : Ctx) (d : Nat) (ps : List Cell) : Prop := ∀ b ∈ Below c d ps, c.v.inUse b = true

/-- Freeing one cell leaves the rest of the range as it was: the trees below the cells are apart. -/
theorem BelowUsed.tail {d : Nat} {p : Cell} {ps : List Cell} {c c' : Ctx}
    (h : BelowUsed c d (p :: ps)) (hD : Detached c d (p :: ps)) (hF : Freed d [p] c c') :
    BelowUsed c' d ps := by
  intro b hb
  rw [hF.below_eq hD] at hb
  rw [hF.marks b, h b (mem_below_cons.mpr (Or.inr hb))]
  intro hp
  obtain ⟨q, hq, hb⟩ := hb
  have hqp : q ≠ p := fun e => (List.nodup_cons.mp hD.nodup).1 (e ▸ hq)
  exact Set.disjoint_left.mp (hD.disj q (List.mem_cons_of_mem _ hq) p (by simp) hqp) hb
    (mem_below_singleton.mp hp)

theorem BelowUsed.head {d : Nat} {p : Cell} {ps : List Cell} {c : Ctx}
    (h : BelowUsed c d (p :: ps)) : BelowUsed c d [p] := fun b hb =>
  h b (mem_below_cons.mpr (Or.inl (mem_below_singleton.mp hb)))

/-- If freeing one cell is logged correctly, so is freeing a range.  The blocks below the rest of
the range are as they were, so what was proved of one cell applies again. -/
theorem foldl_free_cell_logged_writes {d : Nat}
    (hone : ∀ s p, Geometry s.c.v → Detached s.c d [p] → BelowUsed s.c d [p] →
      Writes s (free_cell_logged d s p)) (ps : List Cell) :
    ∀ s : Logged, Geometry s.c.v → Detached s.c d ps → BelowUsed s.c d ps →
      Writes s (ps.foldl (free_cell_logged d) s) := by
  induction ps with
  | nil => intro s _ _ _; exact Writes.refl s
  | cons p ps ih =>
    intro s hg hD hu
    have hF : Freed d [p] s.c (free_cell_logged d s p).c := by
      rw [free_cell_logged_erase]
      have h := free_branches_freed d s.c [p] hg hD.head
      rwa [free_branches_eq_foldl] at h
    exact (hone s p hg hD.head hu.head).trans
      (ih _ (hF.vol.geometry hg) (hF.detached hD) (hu.tail hD hF))

/-- A data block. -/
theorem free_cell_logged_zero {s : Logged} {p : Cell} (hg : Geometry s.c.v)
    (hD : Detached s.c 0 [p]) (hu : BelowUsed s.c 0 [p]) : Writes s (free_cell_logged 0 s p) := by
  unfold free_cell_logged
  dsimp only
  by_cases hz : s.c.load p = 0
  · rw [if_pos hz]
    exact Writes.refl s
  · rw [if_neg hz]
    have hmem : s.c.load p ∈ Below s.c 0 [p] := mem_below_singleton.mpr (mem_region_self hz)
    have hst := store_blockStep s.c p 0
    have h1 : Writes s (s.at_ (s.c.store p 0)) := Writes.none fun b => store_inUse _ _ _ _
    refine h1.trans (Writes.free_block (hst.geometry hg) ((hst.inZone _).mpr (hD.zone _ hmem)) ?_)
    exact (store_inUse s.c p 0 _).trans (hu _ hmem)

/-- An indirect block: first what hangs below it, then the block itself, which is still in use.  A
block whose entries cannot be read is kept in use, with all that is below it. -/
theorem free_cell_logged_succ {d : Nat}
    (ih : ∀ s ps, Geometry s.c.v → Detached s.c d ps → BelowUsed s.c d ps →
      Writes s (free_branches_logged d s ps))
    {s : Logged} {p : Cell} (hg : Geometry s.c.v) (hD : Detached s.c (d + 1) [p])
    (hu : BelowUsed s.c (d + 1) [p]) : Writes s (free_cell_logged (d + 1) s p) := by
  unfold free_cell_logged
  dsimp only
  by_cases hz : s.c.load p = 0
  · rw [if_pos hz]
    exact Writes.refl s
  rw [if_neg hz]
  unfold sb_bread
  cases (s.c.store p 0).v.env.bread (s.c.store p 0).v.tick with
  | false => exact Writes.none fun b => store_inUse _ _ _ _
  | true =>
    dsimp only
    obtain ⟨hw, hent⟩ := hD.entries hz
    have hst := store_blockStep s.c p 0
    have hgs := hst.geometry hg
    rw [hgs.indircount]
    generalize hc1 : ({ s.c.store p 0 with
      v := { (s.c.store p 0).v with tick := (s.c.store p 0).v.tick + 1 } } : Ctx) = c1
    have hg1 : Geometry c1.v := by rw [← hc1]; exact { hgs with }
    have huse1 : ∀ b, c1.v.inUse b = s.c.v.inUse b := fun b => by
      rw [← hc1]; exact store_inUse s.c p 0 b
    have hent1 : Detached c1 d (block_cells (s.c.load p) 0 1024) := by
      rw [← hc1]; exact hent.withTick _
    -- what hangs below the entries hung below the cell
    have hbel : ∀ b ∈ Below c1 d (block_cells (s.c.load p) 0 1024), b ∈ Below s.c (d + 1) [p] := by
      rintro b ⟨q, hq, hb⟩
      obtain ⟨j, -, hj, rfl⟩ := mem_block_cells.mp hq
      have hl : c1.load (.blk (s.c.load p) j) = s.c.v.words (s.c.load p) j := by
        rw [← hc1]; exact hw _ (mem_region_self hz) j
      have hreg : Region c1.v.words 1024 d (s.c.v.words (s.c.load p) j) =
          Region s.c.v.words 1024 d (s.c.v.words (s.c.load p) j) :=
        region_congr fun b hb i _ => by
          rw [← hc1]
          exact hw b ((mem_region_succ hz).mpr (Or.inr ⟨j, hj, hb⟩)) i
      rw [hl, hreg] at hb
      exact mem_below_singleton.mpr ((mem_region_succ hz).mpr (Or.inr ⟨j, hj, hb⟩))
    have hself : s.c.load p ∈ Below s.c (d + 1) [p] := mem_below_singleton.mpr (mem_region_self hz)
    have hsub := ih (s.at_ c1) _ hg1 hent1 fun b hb => (huse1 b).trans (hu b (hbel b hb))
    have hF := free_branches_freed d c1 _ hg1 hent1
    rw [show free_branches d c1 _ = _ from
      (free_branches_logged_erase d (s.at_ c1) (block_cells (s.c.load p) 0 1024)).symm] at hF
    have h1 : Writes s (s.at_ c1) := Writes.none huse1
    refine (h1.trans hsub).trans (Writes.free_block (hF.vol.geometry hg1) ?_ ?_)
    · rw [hF.vol.inZone, ← hc1]
      exact (hst.inZone _).mpr (hD.zone _ hself)
    · rw [hF.marks, huse1]
      · exact hu _ hself
      · exact hent1.apart _ 0 (mem_block_cells.mpr ⟨0, le_refl _, by omega, rfl⟩)

/-- **`free_branches` frees each block below its cells once.** The induction is that of
`free_branches_freed`, with the log carried along. -/
theorem free_branches_logged_writes : ∀ (d : Nat) (s : Logged) (ps : List Cell),
    Geometry s.c.v → Detached s.c d ps → BelowUsed s.c d ps →
      Writes s (free_branches_logged d s ps)
  | 0, s, ps, hg, hD, hu => by
    rw [free_branches_logged_eq_foldl]
    exact foldl_free_cell_logged_writes (fun _ _ => free_cell_logged_zero) ps s hg hD hu
  | d + 1, s, ps, hg, hD, hu => by
    rw [free_branches_logged_eq_foldl]
    exact foldl_free_cell_logged_writes (fun _ _ => free_cell_logged_succ fun s ps =>
      free_branches_logged_writes d s ps) ps s hg hD hu

/-! ## 4. Truncation

The pieces of `gas_truncate_inode`, as in `Itree/Truncate.lean`. -/

section
variable {s : Logged}

/-- Cells of a sound tree.  They are detached, and what hangs below them is in use. -/
theorem TreeOk.logged_writes (hc : TreeOk s.c) {d : Nat} {ps : List Cell} (hnd : ps.Nodup)
    (hps : ∀ p ∈ ps, ∃ q, shape.IsPath q ∧ rank q = d ∧ IsCell s.c q p) :
    Writes s (free_branches_logged d s ps) := by
  refine free_branches_logged_writes d s ps hc.geometry.toGeometry (hc.detached hnd hps) ?_
  rintro b ⟨p, hp, hb⟩
  obtain ⟨q, hq, rfl, hcell⟩ := hps p hp
  rw [hcell.load, mem_region_val hq] at hb
  obtain ⟨hne, r, hr, rfl⟩ := hb
  exact hc.used _ hr hne

/-- A pointer moved into `nr`.  It is freed there as it would be in its own cell. -/
theorem TreeOk.logged_moved (hc : TreeOk s.c) {q : List Nat} {e : Cell} (hq : shape.IsPath q)
    (he : IsCell s.c q e) : Writes s (free_branches_logged (rank q)
      (s.at_ ((s.c.store .nr (s.c.load e)).store e 0)) [.nr]) := by
  have hne : e ≠ .nr := by rintro rfl; exact not_isCell_nr he
  have hcells : ∀ p ∈ [e], ∃ q', shape.IsPath q' ∧ rank q' = rank q ∧ IsCell s.c q' p := fun p hp =>
    ⟨q, hq, rfl, by rw [List.mem_singleton.mp hp]; exact he⟩
  have hD := hc.detached (by simp) hcells
  rw [show (s.c.store .nr (s.c.load e)).store e 0 = { s.c.store e 0 with nr := s.c.load e } from
    store_withNr s.c (s.c.load e) hne 0]
  have h1 : Writes s (s.at_ { s.c.store e 0 with nr := s.c.load e }) :=
    Writes.none fun b => store_inUse s.c e 0 b
  -- the blocks below the pointer are read as before
  have hw : ∀ b ∈ Region s.c.v.words 1024 (rank q) (s.c.load e), ∀ j < 1024,
      (s.c.store e 0).v.words b j = s.c.v.words b j := by
    intro b hb j _
    refine load_store_ne (q := .blk b j) ?_
    rintro rfl
    exact hD.apart b j (by simp) (mem_below_singleton.mpr hb)
  have hbel : ∀ b, b ∈ Below { s.c.store e 0 with nr := s.c.load e } (rank q) [.nr] ↔
      b ∈ Below s.c (rank q) [e] := fun b => by
    rw [mem_below_singleton, mem_below_singleton]
    exact iff_of_eq (congrArg (b ∈ ·) (region_congr hw))
  have hst := store_blockStep s.c e 0
  refine h1.trans (free_branches_logged_writes (rank q) _ [.nr] (hst.geometry hc.geometry.toGeometry)
    ⟨by simp, ?_, ?_, ?_, ?_⟩ ?_)
  · intro p hp
    rw [List.mem_singleton.mp hp]
    exact (hD.proper e (by simp)).congr hw
  · intro p hp p' hp' hpp
    exact absurd ((List.mem_singleton.mp hp).trans (List.mem_singleton.mp hp').symm) hpp
  · intro b i hb
    simp at hb
  · intro b hb
    exact (hst.inZone b).mpr (hD.zone b ((hbel b).mp hb))
  · intro b hb
    refine (store_inUse s.c e 0 b).trans ?_
    have hmem := mem_below_singleton.mp ((hbel b).mp hb)
    rw [he.load, mem_region_val hq] at hmem
    obtain ⟨hb0, r, hr, rfl⟩ := hmem
    exact hc.used _ hr hb0

/-- One round of the loop at `do_indirects`. -/
theorem indirect_logged_writes (hc : TreeOk s.c) {w : Nat} (hw : w < 3) :
    Writes s (indirect_logged s w) := by
  have hq : shape.IsPath [w + 6] := isPath_cons.mpr ⟨by omega, by simp, by simp⟩
  have hcell : IsCell s.c [w + 6] (.idata (DIRECT + w)) := by
    rw [isCell_idata_iff, Nat.add_comm]
  have hrank : rank [w + 6] = w + 1 := by
    simp only [rank, List.headD_cons, List.length_cons, List.length_nil]
    omega
  have h := hc.logged_moved hq hcell
  rw [hrank] at h
  unfold indirect_logged
  dsimp only [Logged.at_] at h ⊢
  split
  · exact Writes.none fun _ => rfl
  · exact h

theorem do_indirects_logged_writes (hc : TreeOk s.c) (w : Nat) :
    Writes s (do_indirects_logged w s) := by
  unfold do_indirects_logged
  have hmem : ∀ x ∈ List.range' w (DEPTH - 1 - w), x < 3 := fun x hx => by
    rw [List.mem_range'_1] at hx
    simp only [DEPTH] at hx
    omega
  generalize List.range' w (DEPTH - 1 - w) = ws at hmem
  induction ws generalizing s with
  | nil => exact Writes.refl s
  | cons x ws ih =>
    have hx := hmem x (by simp)
    have hok : TreeOk (indirect_logged s x).c := by
      rw [indirect_logged_erase]
      exact (cut_indirect hc hx).treeOk hc
    exact (indirect_logged_writes hc hx).trans
      (ih hok fun y hy => hmem y (List.mem_cons_of_mem _ hy))

/-- The loop that clears the ends of the blocks on the shared branch; the blocks of the branch
themselves are not touched by its rounds. -/
theorem clear_ends_logged_writes {o : List Nat} (ho : IsLeaf o) {chain : List Indirect}
    {start : Nat → Nat} : ∀ (i : Nat) (s : Logged), TreeOk s.c → i < o.length →
      (∀ l, 1 ≤ l → l ≤ i → s.c.val (o.take l) ≠ 0 ∧
        (chain.getD l default).p = .blk (s.c.val (o.take l)) (start l)) →
      Writes s (clear_ends_logged chain o.length i s)
  | 0, s, _, _, _ => Writes.refl s
  | i + 1, s, hc, hi, hch => by
    obtain ⟨hne, hp⟩ := hch (i + 1) (by omega) (le_refl _)
    have hq := isPath_take ho.1 (l := i + 1) (by omega) (by omega)
    have hrank := rank_take ho (l := i + 1) (by omega) (by omega)
    have hcells : cells_behind s.c.v (chain.getD (i + 1) default) =
        block_cells (s.c.val (o.take (i + 1))) (start (i + 1) + 1) 1024 := by
      simp only [cells_behind, hp, hc.geometry.toGeometry.indircount]
    have hcut := cut_block_cells hc hq hne (by omega) (start (i + 1) + 1)
    rw [hrank, show o.length - (i + 1) - 1 = o.length - 1 - (i + 1) by omega] at hcut
    have h1 : Writes s (free_branches_logged (o.length - 1 - (i + 1)) s
        (block_cells (s.c.val (o.take (i + 1))) (start (i + 1) + 1) 1024)) := by
      refine hc.logged_writes (block_cells_nodup _ _ _) fun p hp' => ?_
      obtain ⟨j, -, hj, rfl⟩ := mem_block_cells.mp hp'
      refine ⟨_, (isPath_append hq).mpr ⟨by rw [List.length_singleton]; omega, fun k hk => by
        rw [List.mem_singleton.mp hk]; exact hj⟩, ?_, .entry _ j hq.ne_nil hne⟩
      rw [rank_append hq.ne_nil, hrank, List.length_singleton]
      omega
    rw [clear_ends_logged, hcells]
    refine h1.trans (@clear_ends_logged_writes o ho chain start i _ ?_ (by omega) fun l hl hli => ?_)
    · rw [free_branches_logged_erase]
      exact hcut.treeOk hc
    · rw [free_branches_logged_erase, hcut.val_of_not (isPath_take ho.1 hl (by omega))]
      · exact hch l hl (by omega)
      · rintro ⟨t, ht, j, -, -, rfl⟩
        have := ht.length_le
        simp only [List.length_append, List.length_take, List.length_singleton] at this
        omega

/-- The pointer `find_shared` left in `nr`. -/
theorem SharedOf.logged_writes (hc : TreeOk s.c) (hnr : s.c.nr = 0) {o : List Nat} (ho : IsLeaf o)
    {f : Shared} {start : Nat → Nat} (h : SharedOf s.c o f start) :
    Writes s (if f.c.nr = 0 then s.at_ f.c
      else free_branches_logged (o.length - 1 - f.at_) (s.at_ f.c) [.nr]) := by
  have hlt := h.lt
  rcases h.last with ⟨⟨t, ht⟩, -⟩ | ⟨c', e, ht, he, -, heq⟩
  · rw [if_pos (by rw [ht]; exact hnr)]
    exact Writes.none fun b => by rw [ht]; rfl
  · have hq := isPath_take ho.1 (l := f.at_ + 1) (by omega) (by omega)
    have hrank := rank_take ho (l := f.at_ + 1) (by omega) (by omega)
    have hok := ht.treeOk hc
    have h1 : Writes s (s.at_ c') := by
      obtain ⟨t, ht⟩ := ht
      exact Writes.none fun b => by rw [ht]; rfl
    have h2 := TreeOk.logged_moved (s := s.at_ c') hok hq (ht.isCell.mpr he)
    rw [hrank, show o.length - (f.at_ + 1) = o.length - 1 - f.at_ by omega] at h2
    split
    · refine h1.trans (Writes.none (s := s.at_ c') fun b => ?_)
      rw [heq]
      exact (store_inUse _ _ _ _).trans (store_inUse _ _ _ _)
    · rw [heq]
      exact h1.trans h2

/-- **A truncation frees each block once**, whatever reads fail.  A read that fails makes it free
fewer blocks, never one twice. -/
theorem gas_truncate_inode_logged_writes (hc : TreeOk s.c) :
    Writes s (gas_truncate_inode_logged s) := by
  obtain ⟨hpage, -⟩ := block_truncate_page_cut s.c
  have hc1 := hpage.treeOk hc
  have h1 : Writes s (s.at_ (block_truncate_page s.c)) := Writes.none fun b =>
    hpage.marks b fun q _ ht => by obtain ⟨_, _, hf⟩ := ht; exact hf.elim
  have hleaf := fun hne => block_to_path_isLeaf hc1.geometry
    (b := first_cut_block s.c.v s.c.inode.i_size) hne
  unfold gas_truncate_inode_logged
  dsimp only [Logged.at_] at h1 ⊢
  generalize block_truncate_page s.c = c1 at h1 hc1 hleaf
  generalize block_to_path c1.v (first_cut_block s.c.v s.c.inode.i_size) = o at hleaf
  refine h1.trans ?_
  match o, hleaf with
  | [], _ => exact Writes.refl _
  | [i], hleaf =>
    have hfree := (cut_idata_cells hc1 i).treeOk hc1
    have h2 : Writes ⟨c1, s.log⟩ (free_data_logged ⟨c1, s.log⟩ (idata_cells i DIRECT)) := by
      refine TreeOk.logged_writes (s := ⟨c1, s.log⟩) hc1 (d := 0) (idata_cells_nodup _ _) ?_
      intro p hp
      obtain ⟨j, -, hj, rfl⟩ := mem_idata_cells.mp hp
      have hj' : j < 6 := hj
      refine ⟨[j], isPath_cons.mpr ⟨by omega, by simp, by simp⟩, ?_, .root j⟩
      simp only [rank, List.headD_cons, List.length_cons, List.length_nil]
      omega
    refine h2.trans ((do_indirects_logged_writes ?_ 0).trans (Writes.none fun _ => rfl))
    rw [free_data_logged_erase]
    exact hfree
  | i :: i' :: r, hleaf =>
    have ho := hleaf (by simp)
    obtain ⟨start, hs⟩ := find_shared_spec c1 ho.1.ne_nil
    dsimp only
    generalize find_shared c1 (i :: i' :: r) = f at hs
    have hc2 := hc1.withNr 0
    obtain ⟨Z, hZ, -, hZsub, -⟩ := hs.cut_top hc2 ho rfl
    have h0 : Writes ⟨c1, s.log⟩ ⟨c1.store .nr 0, s.log⟩ := Writes.none fun _ => rfl
    have htop := SharedOf.logged_writes (s := ⟨c1.store .nr 0, s.log⟩) hc2 rfl ho hs
    dsimp only [Logged.at_] at htop
    have herase : (if f.c.nr = 0 then (⟨f.c, s.log⟩ : Logged)
        else free_branches_logged ((i :: i' :: r).length - 1 - f.at_) ⟨f.c, s.log⟩ [.nr]).c =
        if f.c.nr = 0 then f.c
        else free_branches ((i :: i' :: r).length - 1 - f.at_) f.c [.nr] := by
      rw [apply_ite Logged.c, free_branches_logged_erase]
    generalize (if f.c.nr = 0 then (⟨f.c, s.log⟩ : Logged)
      else free_branches_logged ((i :: i' :: r).length - 1 - f.at_) ⟨f.c, s.log⟩ [.nr]) = s2
      at htop herase ⊢
    rw [← herase] at hZ
    have hc3 := hZ.treeOk hc2
    have hentry : ∀ l, 1 ≤ l → l ≤ f.at_ → s2.c.val ((i :: i' :: r).take l) ≠ 0 ∧
        (f.chain.getD l default).p = .blk (s2.c.val ((i :: i' :: r).take l)) (start l) := by
      intro l hl hl'
      have hlt := hs.lt
      rw [hZ.val_of_not (isPath_take ho.1 hl (by omega))]
      · exact hs.entry l hl hl'
      · rintro ⟨q, hq, hz⟩
        have hlen := hq.length_le
        rw [hZsub q hz] at hlen
        simp only [List.length_take] at hlen
        omega
    have hends := @clear_ends_logged_writes _ ho f.chain start f.at_ s2 hc3 hs.lt hentry
    have hc4 : TreeOk (clear_ends_logged f.chain (i :: i' :: r).length f.at_ s2).c := by
      rw [clear_ends_logged_erase]
      exact (@cut_clear_ends _ ho f.chain start f.at_ _ hc3 hs.lt hentry).treeOk hc3
    exact (h0.trans htop).trans (hends.trans
      ((do_indirects_logged_writes hc4 (i + 1 - DIRECT)).trans (Writes.none fun _ => rfl)))

end

end GasFs
