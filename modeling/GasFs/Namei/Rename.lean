/-
# Renaming: `gas_rename`

`gas_rename` enters the new name (`rename_target`), deletes the record of the old one and turns `..`
of a moved directory to its new parent (`rename_source`).  Two of its helpers do not do what they are
called for: `gas_set_link` prepares and commits the chunk of a record and never writes the number, and
the error of `gas_delete_entry` is dropped.

So a target that exists keeps the inode it had, `..` of a moved directory keeps the old parent, and
the old name stays when its chunk cannot be prepared.  This file follows a call through its three parts
and tells what each of them makes of the namespace (`rename_find_spec`, `rename_onto`, `rename_into`,
`rename_source_spec`).  All error exits are in front of the first change: a call that takes one leaves
the namespace as it was (`rename_enter_error`).

A call that takes none has moved the name exactly when the old record could be freed and the target was
one that `gas_set_link` and `gas_dotdot` do no harm to (`Entered.of_moved`, `Entered.moved`).  Which
calls these are, told of the state in front of the call, is the subject of `RenameMoves.lean`.

The function is cut in three where its error exits end: `rename_find` and `rename_target` may fail,
`rename_source` may not.  `Entered` is what is known between the second and the third.
-/
import GasFs.Namei.Space

namespace GasFs

open Bytes SlotTable Namespace

/-! ## 1. The function

`gas_set_link` gets the number of the inode and does not use it.  The model keeps the parameter and
marks it as unused; the body is that of `gas_delete_entry` without the store. -/

/-- `gas_set_link`.  The number of the inode is not written anywhere. -/
def gas_set_link (c : Ctx) (n p : Nat) (_inode : Nat) : Ctx :=
  let pos := PAGE_CACHE_SIZE * n + p
  match gas_dir_prepare_chunk c pos sizeof_gas_dir_entry with
  | (c, some _) => touch c
  | (c, none) => touch (gas_dir_commit_chunk none c pos sizeof_gas_dir_entry).1

/-- `gas_dotdot`: the second record of the first page. -/
def gas_dotdot (c : Ctx) : Option (Nat × Nat) × Ctx :=
  match gas_dir_get_page c 0 with
  | (none, c) => (none, c)
  | (some _, c) => (some (0, sizeof_gas_dir_entry), c)

/-- `gas_rename` up to the record of the old name and, for a directory, the one of `..`. -/
def rename_find (d : Fs Nat) (old_dir : Nat) (old_name : List UInt8) (old_inode : Nat) :
    Fs Nat × Except Errno ((Nat × Nat) × Option (Nat × Nat)) :=
  match gas_find_entry (d.ctx old_dir) old_name with
  | (none, c) => (d.set old_dir c, .error .ENOENT)
  | (some old_de, c) =>
    let d := d.set old_dir c
    if S_ISDIR (d.inode old_inode).i_mode then
      match gas_dotdot (d.ctx old_inode) with
      | (none, c) => (d.set old_inode c, .error Errno.EIO)
      | (some dir_de, c) => (d.set old_inode c, .ok (old_de, some dir_de))
    else (d, .ok (old_de, none))

/-- The two branches of `gas_rename` that enter the new name.  With an inode to replace, its record
is "set" and its links are taken; without one an entry is made. -/
def rename_target (d : Fs Nat) (old_inode new_dir : Nat) (new_name : List UInt8)
    (new_inode : Option Nat) (dir_de : Option (Nat × Nat)) : Fs Nat × Option Errno :=
  match new_inode with
  | some new_inode =>
    let empty := if dir_de.isSome then gas_empty_dir (d.ctx new_inode) else (true, d.ctx new_inode)
    let d := d.set new_inode empty.2
    if empty.1 = false then (d, some .ENOTEMPTY)
    else
      match gas_find_entry (d.ctx new_dir) new_name with
      | (none, c) => (d.set new_dir c, some .ENOENT)
      | (some (n, p), c) =>
        let d := d.set new_dir (gas_set_link c n p old_inode)
        let d := d.modify new_inode fun i => { i with i_ctime := d.vol.now }
        -- drop_nlink
        let d := if dir_de.isSome then d.modify new_inode inode_dec_link_count else d
        (d.modify new_inode inode_dec_link_count, none)
  | none =>
    match gas_add_link (d.ctx new_dir) new_name (d.inode old_inode).i_ino with
    | (c, some e) => (d.set new_dir c, some e)
    | (c, none) =>
      let d := d.set new_dir c
      (if dir_de.isSome then d.modify new_dir inode_inc_link_count else d, none)

/-- `gas_rename` up to where nothing stops it any more. -/
def rename_enter (d : Fs Nat) (old_dir : Nat) (old_name : List UInt8) (old_inode new_dir : Nat)
    (new_name : List UInt8) (new_inode : Option Nat) :
    Fs Nat × Except Errno ((Nat × Nat) × Option (Nat × Nat)) :=
  match rename_find d old_dir old_name old_inode with
  | (d, .error e) => (d, .error e)
  | (d, .ok (old_de, dir_de)) =>
    match rename_target d old_inode new_dir new_name new_inode dir_de with
    | (d, some e) => (d, .error e)
    | (d, none) => (d, .ok (old_de, dir_de))

/-- The rest of `gas_rename`.  What `gas_delete_entry` returns is dropped.  The order is that of the
source: the old record, then `..` of a directory. -/
def rename_source (d : Fs Nat) (old_dir old_inode new_dir : Nat) (old_de : Nat × Nat)
    (dir_de : Option (Nat × Nat)) : Fs Nat :=
  let d := d.set old_dir (gas_delete_entry (d.ctx old_dir) old_de.1 old_de.2).1
  match dir_de with
  | some dir_de =>
    let d := d.set old_inode (gas_set_link (d.ctx old_inode) dir_de.1 dir_de.2 new_dir)
    d.modify old_dir inode_dec_link_count
  | none => d

/-- `gas_rename`. -/
def gas_rename (d : Fs Nat) (old_dir : Nat) (old_name : List UInt8) (old_inode new_dir : Nat)
    (new_name : List UInt8) (new_inode : Option Nat) : Fs Nat × Option Errno :=
  match rename_enter d old_dir old_name old_inode new_dir new_name new_inode with
  | (d, .error e) => (d, some e)
  | (d, .ok (old_de, dir_de)) => (rename_source d old_dir old_inode new_dir old_de dir_de, none)

/-! ## 2. The helpers

Both leave every slot as it is.  `gas_dotdot` does not look at the record: it takes the second one
of the first page for `..`, which it is in a directory that `gas_make_empty` began. -/

/-- A record ends in front of the end of its directory. -/
theorem DirOk.slot_end {inode : Inode} (hd : DirOk inode) {t : Nat} (ht : t < inode.nslots) :
    4096 * (slotPos t).1 + (slotPos t).2 + 260 ≤ inode.i_size := by
  obtain ⟨P, m, hdim⟩ := hd.dims
  have hm := hdim.le
  have hns := hdim.nslots
  have hsize := hdim.size
  simp only [slotPos]
  omega

/-- **`gas_set_link` changes no entry.** The chunk is prepared and committed, so a block may be
taken and the times change. -/
theorem gas_set_link_spec {c : Ctx} (hd : DirOk c.inode) {t : Nat} (ht : t < c.inode.nslots)
    (ino : Nat) : DirStep c.inode (gas_set_link c (slotPos t).1 (slotPos t).2 ino).inode ∧
      Unchanged c.inode (gas_set_link c (slotPos t).1 (slotPos t).2 ino).inode := by
  have hmap := prepare_chunk_mapStep c (PAGE_CACHE_SIZE * (slotPos t).1 + (slotPos t).2)
    sizeof_gas_dir_entry
  have hend := hd.slot_end ht
  unfold gas_set_link
  dsimp only
  generalize gas_dir_prepare_chunk c (PAGE_CACHE_SIZE * (slotPos t).1 + (slotPos t).2)
    sizeof_gas_dir_entry = r at hmap
  obtain ⟨c1, o⟩ := r
  have hsame := hmap.sameDir
  have hcommit : (gas_dir_commit_chunk none c1 (PAGE_CACHE_SIZE * (slotPos t).1 + (slotPos t).2)
      sizeof_gas_dir_entry).1 = c1 := if_neg (by
    rw [hsame.1]
    show ¬c.inode.i_size < 4096 * (slotPos t).1 + (slotPos t).2 + 260
    omega)
  have htouch : DirStep c.inode (touch c1).inode ∧ Unchanged c.inode (touch c1).inode := by
    refine ⟨hmap.dirStep.trans ⟨_, _, _, _, _, rfl⟩, ?_⟩
    have hsame' : SameDir c.inode (touch c1).inode := hsame
    exact hsame'.unchanged hd
  cases o with
  | none =>
    dsimp only
    rw [hcommit]
    exact htouch
  | some e => exact htouch

/-- It asks for one page. -/
theorem gas_dotdot_ticked (c : Ctx) : Ticked c (gas_dotdot c).2 := by
  unfold gas_dotdot gas_dir_get_page
  cases c.v.env.pgread c.v.tick with
  | false => exact ⟨_, rfl⟩
  | true => exact ⟨_, rfl⟩

/-- And takes the second slot. -/
theorem gas_dotdot_some {c : Ctx} {de : Nat × Nat} (h : (gas_dotdot c).1 = some de) :
    de = slotPos 1 := by
  unfold gas_dotdot gas_dir_get_page at h
  cases hp : c.v.env.pgread c.v.tick with
  | false => simp [hp] at h
  | true =>
    simp only [hp, if_true, Option.some.injEq] at h
    exact h.symm

/-- Nor does it change anything else of the namespace. -/
theorem Fs.DirsOk.set_link {d : Fs Nat} {k : Nat} {i : Inode} {c : Ctx} (h : d.DirsOk)
    (hk : d.inodes k = some i) (hdir : d.isDir k = true) (hc : c.inode = i) {t : Nat}
    (ht : t < i.nslots) (ino : Nat) :
    d.Keeps (d.set k (gas_set_link c (slotPos t).1 (slotPos t).2 ino)) ∧
      (d.set k (gas_set_link c (slotPos t).1 (slotPos t).2 ino)).space = d.space := by
  obtain ⟨hok, hu⟩ := h k hdir
  rw [Fs.inode_of hk] at hok hu
  obtain ⟨hstep, hun⟩ := gas_set_link_spec (c := c) (by rw [hc]; exact hok) (t := t)
    (by rw [hc]; exact ht) ino
  rw [hc] at hstep hun
  refine ⟨h.keeps_set hk hstep (fun _ => ⟨hun.ok, ?_⟩) fun s e hs => ?_,
    Fs.space_same hk hstep hun.slots⟩
  · rw [hun.slots]
    exact hu
  · rw [hun.slots]
    exact hs

/-! ## 3. Up to the new name

`RenameCall` is what the VFS has checked.  From there: which records are found, and what the two
branches for the new name do.  An existing target loses its links here although its record goes on
naming it. -/

/-- What the VFS calls `gas_rename` with: names that are neither `.` nor `..`, of which the old one
names the old inode, and the new one, in a directory that is not removed, the new inode, if any.  A
directory is renamed onto a directory or to no inode at all. -/
structure RenameCall (d : Fs Nat) (old_dir : Nat) (old_name : List UInt8) (old_inode new_dir : Nat)
    (new_name : List UInt8) (new_inode : Option Nat) : Prop where
  named : d.Named
  isOld : IsName old_name ∧ old_name ≠ dot ∧ old_name ≠ dotdot
  isNew : IsName new_name ∧ new_name ≠ dot ∧ new_name ≠ dotdot
  dir : d.isDir new_dir = true
  source : d.entry (old_dir, old_name) = some old_inode
  target : d.entry (new_dir, new_name) = new_inode
  ne : (old_dir, old_name) ≠ (new_dir, new_name)
  kind : S_ISDIR (d.inode old_inode).i_mode = true → ∀ new, new_inode = some new → d.isDir new = true

section Call

variable {d : Fs Nat} {old_dir old_inode new_dir : Nat} {old_name new_name : List UInt8}
  {new_inode : Option Nat}

/-- The volume does not matter. -/
theorem RenameCall.vol (h : RenameCall d old_dir old_name old_inode new_dir new_name new_inode)
    (v : Vol) :
    RenameCall { d with vol := v } old_dir old_name old_inode new_dir new_name new_inode :=
  ⟨⟨h.named.ino, h.named.dead, h.named.dirs, h.named.tree⟩, h.isOld, h.isNew, h.dir,
    h.source, h.target, h.ne, h.kind⟩

/-- **The records.**  Nothing changes but the volume; the first record is the one of the old name, the
second, for a directory, the slot of `..`. -/
theorem rename_find_spec
    (h : RenameCall d old_dir old_name old_inode new_dir new_name new_inode) :
    ∃ v o, rename_find d old_dir old_name old_inode = ({ d with vol := v }, o) ∧
      ∀ old_de dir_de, o = .ok (old_de, dir_de) →
        (∃ t, slotPos t = old_de ∧
          (d.inode old_dir).slots[t]? = some (some (old_name, old_inode))) ∧
        dir_de = if S_ISDIR (d.inode old_inode).i_mode then some (slotPos 1) else none := by
  have hdir : d.isDir old_dir = true := Fs.isDir_of_entry h.source
  obtain ⟨i, hi⟩ := Fs.isDir_some hdir
  obtain ⟨io, hio⟩ := h.named.used h.source
  obtain ⟨hok, hu⟩ := h.named.dirs old_dir hdir
  have htick := gas_find_entry_ticked (d.ctx old_dir) old_name
  have hsome := fun n p => gas_find_entry_some (c := d.ctx old_dir) hok h.isOld.1 (n := n) (p := p)
  unfold rename_find
  generalize gas_find_entry (d.ctx old_dir) old_name = r at htick hsome
  obtain ⟨o, c⟩ := r
  have hset := Fs.set_of_ticked hi htick
  cases o with
  | none =>
    dsimp only
    rw [hset]
    exact ⟨_, _, rfl, fun _ _ he => by simp at he⟩
  | some old_de =>
    obtain ⟨t, ino, hpos, hs⟩ := hsome old_de.1 old_de.2 rfl
    have hslot : (d.inode old_dir).slots[t]? = some (some (old_name, old_inode)) := by
      have hlook := h.source
      rw [Fs.entry_of_isDir hdir, lookup_of_mem_live hu (mem_live.mpr (List.mem_of_getElem? hs))]
        at hlook
      rw [← Option.some.inj hlook]
      exact hs
    dsimp only
    rw [hset]
    have hinode : ({ d with vol := c.v } : Fs Nat).inode old_inode = d.inode old_inode := rfl
    rw [hinode]
    by_cases hmode : S_ISDIR (d.inode old_inode).i_mode = true
    · rw [if_pos hmode]
      have htick' := gas_dotdot_ticked (({ d with vol := c.v } : Fs Nat).ctx old_inode)
      have hde := @gas_dotdot_some (({ d with vol := c.v } : Fs Nat).ctx old_inode)
      generalize gas_dotdot (({ d with vol := c.v } : Fs Nat).ctx old_inode) = r at htick' hde
      obtain ⟨o', c'⟩ := r
      have hset' := Fs.set_of_ticked (d := { d with vol := c.v }) hio htick'
      cases o' with
      | none =>
        dsimp only
        rw [hset']
        exact ⟨_, _, rfl, fun _ _ he => by simp at he⟩
      | some de =>
        dsimp only
        rw [hset']
        refine ⟨_, _, rfl, fun old_de' dir_de he => ?_⟩
        simp only [Except.ok.injEq, Prod.mk.injEq] at he
        obtain ⟨rfl, rfl⟩ := he
        exact ⟨⟨t, hpos, hslot⟩, by rw [if_pos hmode, hde rfl]⟩
    · rw [if_neg hmode]
      refine ⟨_, _, rfl, fun old_de' dir_de he => ?_⟩
      simp only [Except.ok.injEq, Prod.mk.injEq] at he
      obtain ⟨rfl, rfl⟩ := he
      exact ⟨⟨t, hpos, hslot⟩, by rw [if_neg hmode]⟩

/-- The changes of the target's inode are one change of its links. -/
theorem replaced_links {d1 d2 : Fs Nat} {new : Nat} {i2 : Inode} {f : Inode → Inode}
    (hkeeps : d.Keeps d2) (hspace : d2.space = d1.space) (hi2 : d2.inodes new = some i2)
    (hf : LinkStep f) : d.Keeps (d2.modify new f) ∧
      (d2.modify new f).space = { d1.space with
        nlink := Function.update d1.space.nlink new (some (f i2).i_nlink.toNat) } := by
  refine ⟨hkeeps.trans (hkeeps.dirs.keeps_modify hi2 hf), ?_⟩
  rw [Fs.space_modify hi2 hf, hspace]

/-- **A target that exists** keeps its inode, which loses one or two links. -/
theorem rename_onto {new : Nat}
    (h : RenameCall d old_dir old_name old_inode new_dir new_name (some new))
    (dir_de : Option (Nat × Nat)) :
    (∃ e, (rename_target d old_inode new_dir new_name (some new) dir_de).2 = some e ∧
      (rename_target d old_inode new_dir new_name (some new) dir_de).1.space = d.space) ∨
    (rename_target d old_inode new_dir new_name (some new) dir_de).2 = none ∧
      d.Keeps (rename_target d old_inode new_dir new_name (some new) dir_de).1 ∧
      ∃ x, (dir_de = none → ∀ n, d.space.nlink new = some (n + 1) → x = n) ∧
        (rename_target d old_inode new_dir new_name (some new) dir_de).1.space =
          { d.space with nlink := Function.update d.space.nlink new (some x) } := by
  obtain ⟨i, hi⟩ := Fs.isDir_some h.dir
  obtain ⟨inew, hnew⟩ := h.named.used h.target
  -- the scan for emptiness
  have htick : Ticked (d.ctx new)
      (if dir_de.isSome then gas_empty_dir (d.ctx new) else (true, d.ctx new)).2 := by
    split
    · exact gas_empty_dir_ticked _
    · exact Ticked.refl _
  unfold rename_target
  dsimp only
  generalize (if dir_de.isSome then gas_empty_dir (d.ctx new) else (true, d.ctx new)) = empty
    at htick
  rw [Fs.set_of_ticked hnew htick]
  generalize empty.2.v = v
  by_cases hempty : empty.1 = false
  · rw [if_pos hempty]
    exact Or.inl ⟨_, rfl, rfl⟩
  · rw [if_neg hempty]
    have h1 := h.vol v
    generalize hd1 : ({ d with vol := v } : Fs Nat) = d1 at h1
    have hi1 : d1.inodes = d.inodes := by rw [← hd1]
    have hspace1 : d1.space = d.space := by rw [← hd1]; rfl
    have hkeeps1 : d.Keeps d1 := by rw [← hd1]; exact h.named.dirs.keeps_vol v
    rw [← hi1] at hi hnew
    rw [← hspace1]
    have hok := (h1.named.dirs new_dir h1.dir).1
    have htick1 := gas_find_entry_ticked (d1.ctx new_dir) new_name
    have hsome := fun n p => gas_find_entry_some (c := d1.ctx new_dir) hok h.isNew.1 (n := n)
      (p := p)
    generalize gas_find_entry (d1.ctx new_dir) new_name = r at htick1 hsome
    obtain ⟨o, c⟩ := r
    cases o with
    | none =>
      dsimp only
      rw [Fs.set_of_ticked hi htick1]
      exact Or.inl ⟨_, rfl, rfl⟩
    | some de =>
      obtain ⟨n, p⟩ := de
      obtain ⟨t, ino, hpos, hs⟩ := hsome n p rfl
      obtain rfl : n = (slotPos t).1 := congrArg Prod.fst hpos.symm
      obtain rfl : p = (slotPos t).2 := congrArg Prod.snd hpos.symm
      rw [Fs.ctx_inode, Fs.inode_of hi] at hs
      obtain ⟨hkeeps2, hspace2⟩ := h1.named.dirs.set_link hi h1.dir
        (htick1.inode.trans (Fs.inode_of hi)) (getElem?_slots_eq_some.mp hs).1 old_inode
      dsimp only
      generalize d1.set new_dir (gas_set_link c (slotPos t).1 (slotPos t).2 old_inode) = d2
        at hkeeps2 hspace2
      obtain ⟨i2, hi2, -⟩ := hkeeps2.used new inew hnew
      refine Or.inr ⟨rfl, ?_⟩
      have hmod := fun f hf => replaced_links (hkeeps1.trans hkeeps2) hspace2 hi2 (f := f) hf
      cases dir_de with
      | none =>
        simp only [Option.isSome_none, Bool.false_eq_true, if_false, Fs.modify_modify]
        obtain ⟨hk, hsp⟩ := hmod _ (dec_linkStep.comp (ctime_linkStep d2.vol.now))
        refine ⟨hk, _, fun _ n hn => ?_, hsp⟩
        rw [← hspace2] at hn
        have hn' : (d2.inodes new).map (fun i => i.i_nlink.toNat) = some (n + 1) := hn
        rw [hi2] at hn'
        exact toNat_dec (i := { i2 with i_ctime := d2.vol.now }) (Option.some.inj hn')
      | some de =>
        simp only [Option.isSome_some, if_true, Fs.modify_modify]
        obtain ⟨hk, hsp⟩ := hmod _
          ((dec_linkStep.comp dec_linkStep).comp (ctime_linkStep d2.vol.now))
        exact ⟨hk, _, fun he => by simp at he, hsp⟩

/-- **A target that does not exist** is entered. -/
theorem rename_into (h : RenameCall d old_dir old_name old_inode new_dir new_name none)
    (dir_de : Option (Nat × Nat)) :
    (∃ e, (rename_target d old_inode new_dir new_name none dir_de).2 = some e ∧
      (rename_target d old_inode new_dir new_name none dir_de).1.space = d.space) ∨
    (rename_target d old_inode new_dir new_name none dir_de).2 = none ∧
      d.Keeps (rename_target d old_inode new_dir new_name none dir_de).1 ∧
      (rename_target d old_inode new_dir new_name none dir_de).1.space = { d.space with
        nlink := if dir_de.isSome then Function.update d.space.nlink new_dir
          (some ((d.inode new_dir).i_nlink + 1).toNat) else d.space.nlink
        entry := Function.update d.space.entry (new_dir, new_name) (some old_inode) } := by
  obtain ⟨i, hi⟩ := Fs.isDir_some h.dir
  obtain ⟨io, hio⟩ := h.named.used h.source
  obtain ⟨hino, hlt⟩ := h.named.ino old_inode io hio
  have hpos : 0 < old_inode := by
    have hs := h.source
    rw [Fs.entry_of_isDir (Fs.isDir_of_entry h.source)] at hs
    obtain ⟨t, hs⟩ := List.mem_iff_getElem?.mp (mem_live.mp (mem_live_of_lookup hs))
    exact Nat.pos_of_ne_zero (ino_ne_zero hs)
  obtain ⟨-, hkeeps, hout⟩ := h.named.dirs.add_link h.dir h.isNew.1 h.target hpos hlt
  unfold rename_target
  rw [Fs.inode_of hio, hino]
  generalize gas_add_link (d.ctx new_dir) new_name old_inode = r at hkeeps hout
  obtain ⟨c, _ | e⟩ := r
  · obtain ⟨e, he, -⟩ | ⟨-, hspace⟩ := hout
    · simp at he
    refine Or.inr ⟨rfl, ?_⟩
    cases dir_de with
    | none => exact ⟨hkeeps, hspace⟩
    | some de =>
      have hc : (d.set new_dir c).inodes new_dir = some c.inode := Function.update_self _ _ _
      have hl : c.inode.i_nlink = i.i_nlink :=
        Fs.nlink_eq (congrFun (congrArg Space.nlink hspace) new_dir) hi hc
      simp only [Option.isSome_some, if_true]
      refine ⟨hkeeps.trans (hkeeps.dirs.keeps_modify hc inc_linkStep), ?_⟩
      rw [Fs.space_modify hc inc_linkStep, hspace, Fs.inode_of hi, inode_inc_link_count, hl]
      rfl
  · obtain ⟨e', he, hspace⟩ | ⟨he, -⟩ := hout
    · exact Or.inl ⟨e, rfl, hspace⟩
    · simp at he

/-- **An error leaves the namespace as it is.** The inode, times and pages may have changed, and
blocks may have been taken for a chunk. -/
theorem rename_enter_error
    (h : RenameCall d old_dir old_name old_inode new_dir new_name new_inode) {d' : Fs Nat}
    {e : Errno}
    (he : rename_enter d old_dir old_name old_inode new_dir new_name new_inode = (d', .error e)) :
    d'.space = d.space := by
  obtain ⟨v, o, hfind, -⟩ := rename_find_spec h
  unfold rename_enter at he
  rw [hfind] at he
  have h1 := h.vol v
  cases o with
  | error e1 =>
    obtain ⟨rfl, -⟩ := Prod.mk.inj he
    rfl
  | ok de =>
    obtain ⟨old_de, dir_de⟩ := de
    dsimp only at he
    have htarget : (∃ e, (rename_target { d with vol := v } old_inode new_dir new_name new_inode
          dir_de).2 = some e ∧ (rename_target { d with vol := v } old_inode new_dir new_name new_inode
          dir_de).1.space = d.space) ∨
        (rename_target { d with vol := v } old_inode new_dir new_name new_inode dir_de).2 = none := by
      cases new_inode with
      | none => exact (rename_into h1 dir_de).imp_right fun hok => hok.1
      | some new => exact (rename_onto h1 dir_de).imp_right fun hok => hok.1
    generalize rename_target { d with vol := v } old_inode new_dir new_name new_inode dir_de = r
      at he htarget
    obtain ⟨d2, o2⟩ := r
    rcases htarget with ⟨e2, rfl, hspace⟩ | rfl
    · obtain ⟨rfl, -⟩ := Prod.mk.inj he
      exact hspace
    · simp at he

/-- What has happened when nothing stops the call any more.  With an inode to replace, nothing was
entered: its record still names it. -/
structure Entered (d : Fs Nat) (old_dir : Nat) (old_name : List UInt8) (old_inode new_dir : Nat)
    (new_name : List UInt8) (new_inode : Option Nat) (d2 : Fs Nat) (old_de : Nat × Nat)
    (dir_de : Option (Nat × Nat)) : Prop where
  old_slot : ∃ t, slotPos t = old_de ∧
    (d.inode old_dir).slots[t]? = some (some (old_name, old_inode))
  dotdot_slot : dir_de = if S_ISDIR (d.inode old_inode).i_mode then some (slotPos 1) else none
  keeps : d.Keeps d2
  onto : ∀ new, new_inode = some new →
    ∃ x, (dir_de = none → ∀ n, d.space.nlink new = some (n + 1) → x = n) ∧
      d2.space = { d.space with nlink := Function.update d.space.nlink new (some x) }
  into : new_inode = none → d2.space = { d.space with
    nlink := if dir_de.isSome then Function.update d.space.nlink new_dir
      (some ((d.inode new_dir).i_nlink + 1).toNat) else d.space.nlink
    entry := Function.update d.space.entry (new_dir, new_name) (some old_inode) }

/-- A call that gets there has entered the name, or counted down the links of the target. -/
theorem rename_enter_ok
    (h : RenameCall d old_dir old_name old_inode new_dir new_name new_inode) {d2 : Fs Nat}
    {old_de : Nat × Nat} {dir_de : Option (Nat × Nat)}
    (he : rename_enter d old_dir old_name old_inode new_dir new_name new_inode =
      (d2, .ok (old_de, dir_de))) :
    Entered d old_dir old_name old_inode new_dir new_name new_inode d2 old_de dir_de := by
  obtain ⟨v, o, hfind, hrecs⟩ := rename_find_spec h
  unfold rename_enter at he
  rw [hfind] at he
  have h1 := h.vol v
  have hkeeps := h.named.dirs.keeps_vol v
  cases o with
  | error e1 => simp at he
  | ok de =>
    obtain ⟨old_de', dir_de'⟩ := de
    dsimp only at he
    obtain ⟨hold, hdot⟩ := hrecs old_de' dir_de' rfl
    have hok : (rename_target { d with vol := v } old_inode new_dir new_name new_inode dir_de') =
        (d2, none) ∧ old_de' = old_de ∧ dir_de' = dir_de := by
      generalize rename_target { d with vol := v } old_inode new_dir new_name new_inode dir_de' = r
        at he
      obtain ⟨d3, _ | e⟩ := r
      · simpa using he
      · simp at he
    obtain ⟨htarget, rfl, rfl⟩ := hok
    cases new_inode with
    | none =>
      rcases rename_into h1 dir_de' with ⟨e, hne, -⟩ | ⟨-, hk, hspace⟩
      · rw [htarget] at hne
        simp at hne
      · rw [htarget] at hk hspace
        exact ⟨hold, hdot, hkeeps.trans hk, fun new hnew => by simp at hnew, fun _ => hspace⟩
    | some new =>
      rcases rename_onto h1 dir_de' with ⟨e, hne, -⟩ | ⟨-, hk, hspace⟩
      · rw [htarget] at hne
        simp at hne
      · rw [htarget] at hk hspace
        refine ⟨hold, hdot, hkeeps.trans hk, fun new' hnew => ?_, fun hnew => by simp at hnew⟩
        obtain rfl := Option.some.inj hnew
        exact hspace

/-! ## 4. From the old name on

The record of the old name is freed if its chunk can be had.  For a directory a link is taken from
the old parent, though `..` still points there when the parent has changed. -/

/-- **The rest of the call** frees the record of the old name, if its chunk can be prepared, and takes
a link from the old directory of a directory moved. -/
theorem rename_source_spec {d2 : Fs Nat} (hd : d2.DirsOk) (hdir : d2.isDir old_dir = true) {t : Nat}
    (hs : (d2.inode old_dir).slots[t]? = some (some (old_name, old_inode)))
    {dir_de : Option (Nat × Nat)} (hde : ∀ de, dir_de = some de → de = slotPos 1 ∧
      d2.isDir old_inode = true ∧ 1 < (d2.inode old_inode).nslots) :
    (rename_source d2 old_dir old_inode new_dir (slotPos t) dir_de).DirsOk ∧
    (rename_source d2 old_dir old_inode new_dir (slotPos t) dir_de).space = { d2.space with
      nlink := if dir_de.isSome then Function.update d2.space.nlink old_dir
        (some ((d2.inode old_dir).i_nlink - 1).toNat) else d2.space.nlink
      entry := if (gas_delete_entry (d2.ctx old_dir) (slotPos t).1 (slotPos t).2).2 = none then
        Function.update d2.entry (old_dir, old_name) none else d2.entry } := by
  obtain ⟨i, hi⟩ := Fs.isDir_some hdir
  obtain ⟨hframe, hdirs, hns, hout⟩ := hd.delete_entry hdir hs
  unfold rename_source
  dsimp only at hframe hdirs hns hout ⊢
  generalize gas_delete_entry (d2.ctx old_dir) (slotPos t).1 (slotPos t).2 = r at *
  obtain ⟨c, o⟩ := r
  have hspace : (d2.set old_dir c).space = { d2.space with
      entry := if o = none then Function.update d2.entry (old_dir, old_name) none else d2.entry } := by
    rcases hout with ⟨e, rfl, hspace⟩ | ⟨rfl, hspace⟩
    · rw [hspace, if_neg (by simp)]
      rfl
    · rw [hspace, if_pos rfl]
  dsimp only at hdirs hns ⊢
  cases dir_de with
  | none => exact ⟨hdirs, hspace⟩
  | some de =>
    obtain ⟨rfl, hdir', hlt⟩ := hde de rfl
    have hdir'' : (d2.set old_dir c).isDir old_inode = true := (hframe.isDir _).trans hdir'
    obtain ⟨io', hio'⟩ := Fs.isDir_some hdir''
    have hlt' : 1 < io'.nslots := by
      rw [← Fs.inode_of hio']
      rcases eq_or_ne old_inode old_dir with rfl | hne
      · rw [Fs.set_inode]
        exact hlt.trans_le hns
      · rw [Fs.set_inode_of_ne d2 hne]
        exact hlt
    obtain ⟨hkeeps, hspace'⟩ := hdirs.set_link hio' hdir''
      (c := (d2.set old_dir c).ctx old_inode) (Fs.inode_of hio') hlt' new_dir
    simp only [Option.isSome_some, if_true]
    generalize (d2.set old_dir c).set old_inode (gas_set_link ((d2.set old_dir c).ctx old_inode)
      (slotPos 1).1 (slotPos 1).2 new_dir) = d4 at hkeeps hspace'
    obtain ⟨i4, hi4, -⟩ := hkeeps.used old_dir c.inode (Function.update_self _ _ _)
    have hn4 : i4.i_nlink = i.i_nlink := by
      have hn : d4.space.nlink old_dir = d2.space.nlink old_dir := by rw [hspace', hspace]
      exact Fs.nlink_eq hn hi hi4
    refine ⟨(hkeeps.dirs.keeps_modify hi4 dec_linkStep).dirs, ?_⟩
    rw [Fs.space_modify hi4 dec_linkStep, hspace', hspace, inode_dec_link_count, hn4,
      Fs.inode_of hi]

/-! ## 5. What a call should do

`Moved` is stated over entries and link counts alone, as a user of the file system would.  The two
directions follow: what stays undone when the condition fails, and that nothing does when it
holds. -/

/-- **A name moved**: `gas_find_entry` finds the old inode under the new name, the old name is
absent, every other entry is as it was, `..` of a directory moved names the new parent, and the link
counts are the numbers of entries.  The other entries are compared one by one, so nothing may come
or go beside the name. -/
structure Moved (d d' : Fs Nat) (old_dir : Nat) (old_name : List UInt8) (old_inode new_dir : Nat)
    (new_name : List UInt8) : Prop where
  target : ∀ c : Ctx, c.inode = d'.inode new_dir → (∀ n, c.v.env.pgread n = true) →
    (found c new_name).map Prod.snd = some old_inode
  source : d'.entry (old_dir, old_name) = none
  others : ∀ q, q ≠ (old_dir, old_name) → q ≠ (new_dir, new_name) → q ≠ (old_inode, dotdot) →
    d'.entry q = d.entry q
  up : S_ISDIR (d.inode old_inode).i_mode = true → d'.entry (old_inode, dotdot) = some new_dir
  counted : ∀ x, (refs d'.entry x).encard = ((d'.space.nlink x).getD 0 : Nat)

/-- A call that returns `0` has moved the name, and one that returns an error has left the namespace
as it was.  What an error has left in the maps is not asked. -/
def RenameMoves (d : Fs Nat) (old_dir : Nat) (old_name : List UInt8) (old_inode new_dir : Nat)
    (new_name : List UInt8) (new_inode : Option Nat) : Prop :=
  match gas_rename d old_dir old_name old_inode new_dir new_name new_inode with
  | (d', none) => Moved d d' old_dir old_name old_inode new_dir new_name
  | (d', some _) => d'.space = d.space

/-- A directory that has a name is one that is not removed, and its `..` is where the name is. -/
theorem RenameCall.source_dir
    (h : RenameCall d old_dir old_name old_inode new_dir new_name new_inode)
    (hmode : S_ISDIR (d.inode old_inode).i_mode = true) :
    d.isDir old_inode = true ∧ d.entry (old_inode, dotdot) = some old_dir ∧
      (∃ (t : Nat) (e : List UInt8 × Nat), 1 ≤ t ∧
        (d.inode old_inode).slots[t]? = some (some e)) ∧
      ∀ q, d.entry q = some old_inode → q.2 ≠ dot → q.2 ≠ dotdot → q = (old_dir, old_name) := by
  have hdir : d.isDir old_inode = true := h.named.isDir_of_entry h.source hmode
  have hname : Names dot dotdot d.space.entry (old_dir, old_name) old_inode :=
    ⟨h.source, h.isOld.2⟩
  have hroot : old_inode ≠ GAS_ROOT_INO := fun he => h.named.tree.root_names _ (he ▸ hname)
  obtain ⟨q, hq, hup, hone⟩ := h.named.tree.named old_inode hdir hroot
  obtain rfl := hone _ hname
  have hself := h.named.tree.self old_inode hdir
  refine ⟨hdir, hup, ?_, fun q' hq' h1 h2 => hone q' ⟨hq', h1, h2⟩⟩
  -- `.` and `..` are two records
  have hslot : ∀ name x, d.entry (old_inode, name) = some x →
      ∃ t : Nat, (d.inode old_inode).slots[t]? = some (some (name, x)) := by
    intro name x he
    rw [Fs.entry_of_isDir hdir] at he
    exact List.mem_iff_getElem?.mp (mem_live.mp (mem_live_of_lookup he))
  obtain ⟨s, hs⟩ := hslot dot _ hself
  obtain ⟨t, ht⟩ := hslot dotdot _ hup
  have hne : s ≠ t := by
    rintro rfl
    rw [hs, Option.some.injEq, Option.some.injEq, Prod.mk.injEq] at ht
    exact absurd ht.1 (by decide)
  rcases Nat.eq_zero_or_pos t with rfl | hpos
  · exact ⟨s, _, Nat.pos_of_ne_zero hne, hs⟩
  · exact ⟨t, _, hpos, ht⟩

/-- What the rest of the call makes of the space. -/
theorem Entered.finish
    (h : RenameCall d old_dir old_name old_inode new_dir new_name new_inode) {d2 : Fs Nat}
    {old_de : Nat × Nat} {dir_de : Option (Nat × Nat)}
    (he : Entered d old_dir old_name old_inode new_dir new_name new_inode d2 old_de dir_de) :
    (rename_source d2 old_dir old_inode new_dir old_de dir_de).DirsOk ∧
    (rename_source d2 old_dir old_inode new_dir old_de dir_de).space = { d2.space with
      nlink := if dir_de.isSome then Function.update d2.space.nlink old_dir
        (some ((d2.inode old_dir).i_nlink - 1).toNat) else d2.space.nlink
      entry := if (gas_delete_entry (d2.ctx old_dir) old_de.1 old_de.2).2 = none then
        Function.update d2.entry (old_dir, old_name) none else d2.entry } := by
  obtain ⟨t, rfl, hs⟩ := he.old_slot
  refine rename_source_spec he.keeps.dirs ((he.keeps.isDir old_dir).trans (Fs.isDir_of_entry h.source))
    (he.keeps.slots old_dir t _ hs) fun de hde => ?_
  have hdot := he.dotdot_slot
  by_cases hmode : S_ISDIR (d.inode old_inode).i_mode = true
  · rw [if_pos hmode, hde] at hdot
    obtain ⟨hdir, -, ⟨s, e, hpos, hse⟩, -⟩ := h.source_dir hmode
    refine ⟨Option.some.inj hdot, (he.keeps.isDir old_inode).trans hdir, ?_⟩
    exact hpos.trans_lt (getElem?_slots_eq_some.mp (he.keeps.slots old_inode s e hse)).1
  · rw [if_neg hmode, hde] at hdot
    simp at hdot

/-- What stays undone if the condition fails.  A name that moved is found under its new place and
nowhere else. -/
theorem Entered.of_moved
    (h : RenameCall d old_dir old_name old_inode new_dir new_name new_inode) {d2 : Fs Nat}
    {old_de : Nat × Nat} {dir_de : Option (Nat × Nat)}
    (he : Entered d old_dir old_name old_inode new_dir new_name new_inode d2 old_de dir_de)
    (hm : Moved d (rename_source d2 old_dir old_inode new_dir old_de dir_de) old_dir old_name old_inode
      new_dir new_name) :
    (gas_delete_entry (d2.ctx old_dir) old_de.1 old_de.2).2 = none ∧
      (new_inode = none ∧ (S_ISDIR (d.inode old_inode).i_mode = false ∨ old_dir = new_dir) ∨
        new_inode = some old_inode) := by
  obtain ⟨hdirs, hspace⟩ := he.finish h
  generalize rename_source d2 old_dir old_inode new_dir old_de dir_de = d' at hm hdirs hspace
  have hentry : d'.entry = if (gas_delete_entry (d2.ctx old_dir) old_de.1 old_de.2).2 = none then
      Function.update d2.entry (old_dir, old_name) none else d2.entry := congrArg Space.entry hspace
  -- the entries before the deletion
  have hold : d2.entry (old_dir, old_name) = some old_inode := by
    cases new_inode with
    | none =>
      have h2 : d2.entry = Function.update d.entry (new_dir, new_name) (some old_inode) :=
        congrArg Space.entry (he.into rfl)
      rw [h2, Function.update_of_ne h.ne]
      exact h.source
    | some new =>
      obtain ⟨x, -, hsp⟩ := he.onto new rfl
      have h2 : d2.entry = d.entry := congrArg Space.entry hsp
      rw [h2]
      exact h.source
  have hdel : (gas_delete_entry (d2.ctx old_dir) old_de.1 old_de.2).2 = none := by
    by_contra hne
    rw [if_neg hne] at hentry
    have hs := hm.source
    rw [hentry, hold] at hs
    simp at hs
  rw [if_pos hdel] at hentry
  refine ⟨hdel, ?_⟩
  cases new_inode with
  | some new =>
    obtain ⟨x, -, hsp⟩ := he.onto new rfl
    have h2 : d2.entry = d.entry := congrArg Space.entry hsp
    have hdir : d'.isDir new_dir = true := by
      have hd : d'.space.dirs = d.space.dirs := by rw [hspace, hsp]
      have hmem : new_dir ∈ d'.space.dirs := by rw [hd]; exact h.dir
      exact hmem
    have hfound := hm.target ⟨{ d'.vol with env := { d'.vol.env with pgread := fun _ => true } },
      d'.inode new_dir, 0⟩ rfl fun _ => rfl
    rw [found_eq_lookup (hdirs new_dir hdir).1 h.isNew.1 fun _ => rfl] at hfound
    have hlook : d'.entry (new_dir, new_name) = some new := by
      rw [hentry, Function.update_of_ne h.ne.symm, h2]
      exact h.target
    rw [Fs.entry_of_isDir hdir] at hlook
    exact Or.inr (hlook.symm.trans hfound)
  | none =>
    refine Or.inl ⟨rfl, ?_⟩
    cases hmode : S_ISDIR (d.inode old_inode).i_mode with
    | false => exact Or.inl rfl
    | true =>
      have h2 : d2.entry = Function.update d.entry (new_dir, new_name) (some old_inode) :=
        congrArg Space.entry (he.into rfl)
      have hup := hm.up hmode
      rw [hentry, Function.update_of_ne (fun e => h.isOld.2.2 (Prod.mk.inj e).2.symm), h2,
        Function.update_of_ne (fun e => h.isNew.2.2 (Prod.mk.inj e).2.symm)] at hup
      exact Or.inr (Option.some.inj ((h.source_dir hmode).2.1.symm.trans hup))

/-- The counts of a name that moved within the tree: nothing but the place changed. -/
theorem RenameCall.counted_move
    (h : RenameCall d old_dir old_name old_inode new_dir new_name none) (x : Nat) :
    (refs (Function.update (Function.update d.entry (new_dir, new_name) (some old_inode))
      (old_dir, old_name) none) x).encard = ((d.space.nlink x).getD 0 : Nat) := by
  rw [encard_refs_move h.target h.source]
  exact h.named.tree.counted x

/-- The counts of a name that gave way to another name of the same inode. -/
theorem RenameCall.counted_drop
    (h : RenameCall d old_dir old_name old_inode new_dir new_name new_inode) {n : Nat}
    (hn : d.space.nlink old_inode = some (n + 1)) (x : Nat) :
    (refs (Function.update d.entry (old_dir, old_name) none) x).encard =
      ((Function.update d.space.nlink old_inode (some n) x).getD 0 : Nat) := by
  have hun := encard_refs_unbind (show d.entry (old_dir, old_name) = some old_inode from h.source) x
  have hc : (refs d.entry x).encard = ((d.space.nlink x).getD 0 : Nat) := h.named.tree.counted x
  rw [hc] at hun
  by_cases hx : old_inode = x
  · subst hx
    rw [if_pos rfl, hn, Option.getD_some] at hun
    rw [Function.update_self, Option.getD_some]
    exact enat_eq_sub hun
  · rw [if_neg hx, add_zero] at hun
    rw [Function.update_of_ne (Ne.symm hx), ← hun]

/-- A directory that moves within its parent takes no link from it. -/
theorem Entered.nlink_back
    (h : RenameCall d old_dir old_name old_inode new_dir new_name none) {d2 : Fs Nat}
    {old_de : Nat × Nat} {dir_de : Option (Nat × Nat)}
    (he : Entered d old_dir old_name old_inode new_dir new_name none d2 old_de dir_de)
    (hkind : S_ISDIR (d.inode old_inode).i_mode = false ∨ old_dir = new_dir) :
    (if dir_de.isSome then Function.update d2.space.nlink old_dir
      (some ((d2.inode old_dir).i_nlink - 1).toNat) else d2.space.nlink) = d.space.nlink := by
  have hspace := he.into rfl
  have hdot := he.dotdot_slot
  cases dir_de with
  | none =>
    simp only [Option.isSome_none, Bool.false_eq_true, if_false] at hspace ⊢
    rw [hspace]
  | some de =>
    simp only [Option.isSome_some, if_true] at hspace ⊢
    obtain rfl : old_dir = new_dir := by
      refine hkind.resolve_left fun hfile => ?_
      rw [hfile, if_neg (by simp)] at hdot
      simp at hdot
    obtain ⟨i, hi⟩ := Fs.isDir_some h.dir
    obtain ⟨i2, hi2, -⟩ := he.keeps.used old_dir i hi
    have hnlink : d2.space.nlink = Function.update d.space.nlink old_dir
        (some (i.i_nlink + 1).toNat) := by rw [hspace, Fs.inode_of hi]
    have hn : d2.space.nlink old_dir = some (i.i_nlink + 1).toNat := by
      rw [hnlink, Function.update_self]
    have hn' : (d2.inodes old_dir).map (fun i => i.i_nlink.toNat) = some (i.i_nlink + 1).toNat := hn
    rw [hi2] at hn'
    have hlink : i2.i_nlink = i.i_nlink + 1 := BitVec.eq_of_toNat_eq (Option.some.inj hn')
    rw [hnlink, Function.update_idem, Fs.inode_of hi2, hlink, BitVec.add_sub_cancel]
    have hold : some i.i_nlink.toNat = d.space.nlink old_dir := by
      simp only [Fs.space, hi, Option.map_some]
    rw [hold, Function.update_eq_self]

/-- What the entries and the counts come to when a name has moved. -/
structure Relocated (d d' : Fs Nat) (old_dir : Nat) (old_name : List UInt8) (old_inode new_dir : Nat)
    (new_name : List UInt8) : Prop where
  target : d'.entry (new_dir, new_name) = some old_inode
  source : d'.entry (old_dir, old_name) = none
  others : ∀ q, q ≠ (old_dir, old_name) → q ≠ (new_dir, new_name) → d'.entry q = d.entry q
  dirs : d'.space.dirs = d.space.dirs
  counted : ∀ x, (refs d'.entry x).encard = ((d'.space.nlink x).getD 0 : Nat)
  kind : S_ISDIR (d.inode old_inode).i_mode = true → old_dir = new_dir

/-- A new name is entered and the old one taken away. -/
theorem Entered.relocated_into (h : RenameCall d old_dir old_name old_inode new_dir new_name none)
    {d2 d' : Fs Nat} {old_de : Nat × Nat} {dir_de : Option (Nat × Nat)}
    (he : Entered d old_dir old_name old_inode new_dir new_name none d2 old_de dir_de)
    (hspace : d'.space = { d2.space with
      nlink := if dir_de.isSome then Function.update d2.space.nlink old_dir
        (some ((d2.inode old_dir).i_nlink - 1).toNat) else d2.space.nlink
      entry := Function.update d2.entry (old_dir, old_name) none })
    (hkind : S_ISDIR (d.inode old_inode).i_mode = false ∨ old_dir = new_dir) :
    Relocated d d' old_dir old_name old_inode new_dir new_name := by
  have hent2 : d2.entry = Function.update d.entry (new_dir, new_name) (some old_inode) :=
    congrArg Space.entry (he.into rfl)
  have hent : d'.entry = Function.update (Function.update d.entry (new_dir, new_name)
      (some old_inode)) (old_dir, old_name) none := by
    rw [← hent2]
    exact congrArg Space.entry hspace
  have hnlink : d'.space.nlink = d.space.nlink := by
    rw [hspace]
    exact he.nlink_back h hkind
  refine ⟨?_, ?_, fun q h1 h2 => ?_, ?_, fun x => ?_, fun hmode => ?_⟩
  · rw [hent, Function.update_of_ne h.ne.symm, Function.update_self]
  · rw [hent, Function.update_self]
  · rw [hent, Function.update_of_ne h1, Function.update_of_ne h2]
  · rw [hspace, he.into rfl]
  · rw [hent, hnlink]
    exact h.counted_move x
  · rcases hkind with hfile | hsame
    · rw [hmode] at hfile
      exact absurd hfile (by simp)
    · exact hsame

/-- The target is another name of the file, which loses one of its two. -/
theorem Entered.relocated_onto
    (h : RenameCall d old_dir old_name old_inode new_dir new_name (some old_inode)) {d2 d' : Fs Nat}
    {old_de : Nat × Nat} {dir_de : Option (Nat × Nat)}
    (he : Entered d old_dir old_name old_inode new_dir new_name (some old_inode) d2 old_de dir_de)
    (hspace : d'.space = { d2.space with
      nlink := if dir_de.isSome then Function.update d2.space.nlink old_dir
        (some ((d2.inode old_dir).i_nlink - 1).toNat) else d2.space.nlink
      entry := Function.update d2.entry (old_dir, old_name) none }) :
    Relocated d d' old_dir old_name old_inode new_dir new_name := by
  have hdot := he.dotdot_slot
  have hfile : S_ISDIR (d.inode old_inode).i_mode = false := by
    rw [← Bool.not_eq_true]
    intro hmode
    exact h.ne ((h.source_dir hmode).2.2.2 _ h.target h.isNew.2.1 h.isNew.2.2).symm
  rw [hfile, if_neg (by simp)] at hdot
  subst hdot
  obtain ⟨n, hn⟩ := h.named.tree.used h.source
  obtain ⟨x, hx, hspace2⟩ := he.onto old_inode rfl
  obtain rfl := hx rfl n hn
  have hent2 : d2.entry = d.entry := congrArg Space.entry hspace2
  have hent : d'.entry = Function.update d.entry (old_dir, old_name) none := by
    rw [← hent2]
    exact congrArg Space.entry hspace
  have hnlink : d'.space.nlink = Function.update d.space.nlink old_inode (some x) := by
    rw [hspace, hspace2]
    rfl
  refine ⟨?_, ?_, fun q h1 h2 => ?_, ?_, fun y => ?_, fun hmode => ?_⟩
  · rw [hent, Function.update_of_ne h.ne.symm]
    exact h.target
  · rw [hent, Function.update_self]
  · rw [hent, Function.update_of_ne h1]
  · rw [hspace, hspace2]
  · rw [hent, hnlink]
    exact h.counted_drop hn y
  · rw [hmode] at hfile
    exact absurd hfile (by simp)

/-- The condition is enough. -/
theorem Entered.moved
    (h : RenameCall d old_dir old_name old_inode new_dir new_name new_inode) {d2 : Fs Nat}
    {old_de : Nat × Nat} {dir_de : Option (Nat × Nat)}
    (he : Entered d old_dir old_name old_inode new_dir new_name new_inode d2 old_de dir_de)
    (hdel : (gas_delete_entry (d2.ctx old_dir) old_de.1 old_de.2).2 = none)
    (hcond : new_inode = none ∧ (S_ISDIR (d.inode old_inode).i_mode = false ∨ old_dir = new_dir) ∨
      new_inode = some old_inode) :
    Moved d (rename_source d2 old_dir old_inode new_dir old_de dir_de) old_dir old_name old_inode
      new_dir new_name := by
  obtain ⟨hdirs, hspace⟩ := he.finish h
  generalize rename_source d2 old_dir old_inode new_dir old_de dir_de = d' at hdirs hspace
  rw [if_pos hdel] at hspace
  have hout : Relocated d d' old_dir old_name old_inode new_dir new_name := by
    rcases hcond with ⟨rfl, hkind⟩ | rfl
    · exact he.relocated_into h hspace hkind
    · exact he.relocated_onto h hspace
  have hdir : d'.isDir new_dir = true := by
    have hmem : new_dir ∈ d'.space.dirs := by rw [hout.dirs]; exact h.dir
    exact hmem
  refine ⟨fun c hc hio => ?_, hout.source, fun q h1 h2 _ => hout.others q h1 h2, fun hmode => ?_,
    hout.counted⟩
  · rw [found_eq_lookup (by rw [hc]; exact (hdirs new_dir hdir).1) h.isNew.1 hio, hc,
      ← Fs.entry_of_isDir hdir]
    exact hout.target
  · rw [hout.others _ (fun e => h.isOld.2.2 (Prod.mk.inj e).2.symm)
      (fun e => h.isNew.2.2 (Prod.mk.inj e).2.symm), (h.source_dir hmode).2.1, hout.kind hmode]

end Call

end GasFs
