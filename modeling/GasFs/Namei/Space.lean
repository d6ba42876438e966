/-
# The namespace of a file system

What a mounted file system is to those who use names: `Fs.space` forgets everything but the link
counts, the directories that are not removed, and the number each of them holds under each name.  All
inodes are taken to be in core; that the table on disk gives them back is the business of
`InodeTable.lean`.

The functions that change a directory or a link count change one place of the space, or nothing:
`Fs.space_update`, `Fs.space_same`, `Fs.space_modify`.  Beside the space, every step
keeps the directories well formed and, unless it deletes, the records where they are (`Fs.Keeps`).

`SlotTable` and `Namespace` are the two libraries underneath: a directory is a table of slots, and a
file system a space of entries, directories and counts.  This file is where they meet: a change of
one slot of one table is a change of one entry of the space.
-/
import GasFs.Itree.Frame
import GasFs.Lib.Namespace
import GasFs.Namei

namespace GasFs

open Bytes SlotTable Namespace

/-! ## 1. Link counts, directories and entries

The space is computed from the inodes in core.  A directory marked as removed has no entries in it,
whatever its slots say, since no lookup gets there. -/

/-- The inode is a directory that is not removed.  The mark of the VFS counts as much as the
type. -/
def Fs.isDir (d : Fs Nat) (k : Nat) : Bool :=
  match d.inodes k with
  | some i => S_ISDIR i.i_mode && !i.dead
  | none => false

/-- What a directory holds under a name.  The first slot with the name decides, and there is at most
one. -/
def Fs.entry (d : Fs Nat) (q : Nat × List UInt8) : Option Nat :=
  if d.isDir q.1 then lookup (d.inode q.1).slots q.2 else none

/-- The namespace.  Contents, sizes, owners and times are not in it. -/
def Fs.space (d : Fs Nat) : Space Nat (List UInt8) where
  nlink k := (d.inodes k).map fun i => i.i_nlink.toNat
  dirs := {k | d.isDir k = true}
  entry := d.entry

/-- The directories are well formed, and no name is twice in one.  A directory that was removed may
be in any state. -/
def Fs.DirsOk (d : Fs Nat) : Prop :=
  ∀ k, d.isDir k = true → DirOk (d.inode k) ∧ Uniq (d.inode k).slots

/-- Inodes under their numbers, and a tree of well-formed directories; what was removed has no
links.  A number must fit the four bytes of a record. -/
structure Fs.Named (d : Fs Nat) : Prop where
  ino : ∀ k i, d.inodes k = some i → i.i_ino = k ∧ k < 4294967296
  dead : ∀ k i, d.inodes k = some i → i.dead = true → i.i_nlink = 0
  dirs : d.DirsOk
  tree : Tree dot dotdot GAS_ROOT_INO d.space

section Inode

variable {d : Fs Nat} {k : Nat} {i : Inode}

/-- The inode under a number in core. -/
theorem Fs.inode_of (hk : d.inodes k = some i) : d.inode k = i := by
  rw [Fs.inode, hk]
  rfl

theorem Fs.isDir_of (hk : d.inodes k = some i) : d.isDir k = (S_ISDIR i.i_mode && !i.dead) := by
  rw [Fs.isDir, hk]

/-- A directory is in core. -/
theorem Fs.isDir_some (h : d.isDir k = true) : ∃ i, d.inodes k = some i := by
  unfold Fs.isDir at h
  cases hk : d.inodes k with
  | none => simp [hk] at h
  | some i => exact ⟨i, rfl⟩

/-- The entries of a directory are those of its slots. -/
theorem Fs.entry_of_isDir (h : d.isDir k = true) (name : List UInt8) :
    d.entry (k, name) = lookup (d.inode k).slots name := if_pos h

/-- Entries are in directories only. -/
theorem Fs.isDir_of_entry {q : Nat × List UInt8} {k : Nat} (hq : d.entry q = some k) :
    d.isDir q.1 = true := by
  unfold Fs.entry at hq
  split at hq
  · assumption
  · simp at hq

/-- What a directory holds is in core. -/
theorem Fs.Named.used (h : d.Named) {q : Nat × List UInt8} {k : Nat} (hq : d.entry q = some k) :
    ∃ i, d.inodes k = some i := by
  obtain ⟨n, hn⟩ := h.tree.used hq
  have hn' : (d.inodes k).map (fun i => i.i_nlink.toNat) = some (n + 1) := hn
  obtain ⟨i, hi, -⟩ := Option.map_eq_some_iff.mp hn'
  exact ⟨i, hi⟩

end Inode

/-- What `gas_find_entry` finds is what the directory holds. -/
theorem found_eq_lookup {c : Ctx} (hd : DirOk c.inode) {name : List UInt8} (hn : IsName name)
    (hio : ∀ n, c.v.env.pgread n = true) :
    (found c name).map Prod.snd = lookup c.inode.slots name := by
  cases hl : locate c.inode.slots name with
  | none =>
    rw [(found_eq_none hd hn hio).mpr hl, locate_eq_none_iff.mp hl]
    rfl
  | some t =>
    obtain ⟨ino, hs, hlook⟩ := lookup_of_locate hl
    rw [(found_eq_some hd hn hio).mpr ⟨t, hl, rfl, hs⟩, hlook]
    rfl

/-! ## 2. One record written

The three changes of a table that the code makes, as changes of the function from names to numbers.
That no name is twice is needed only when a record is freed. -/

section Record

variable {i i' : Inode} {name : List UInt8} {t ino : Nat}

/-- A new name was entered. -/
theorem Updated.lookup_add (h : Updated (hole i.slots) (some (name, ino)) i i')
    (habs : lookup i.slots name = none) :
    lookup i'.slots = Function.update (lookup i.slots) name (some ino) := by
  funext name'
  rw [eq_put_of_getElem? h.getElem?]
  by_cases hne : name' = name
  · rw [hne, Function.update_self, lookup_put_self habs]
  · rw [Function.update_of_ne hne, lookup_put_ne hne]

/-- A record was freed. -/
theorem Updated.lookup_clear (h : Updated t none i i') (hu : Uniq i.slots)
    (hs : i.slots[t]? = some (some (name, ino))) :
    lookup i'.slots = Function.update (lookup i.slots) name none := by
  funext name'
  rw [eq_set_of_getElem? (List.getElem?_eq_some_iff.mp hs).1 h.getElem?]
  by_cases hne : name' = name
  · rw [hne, Function.update_self, lookup_clear_self hu hs]
  · rw [Function.update_of_ne hne, lookup_clear_ne hs hne]

/-- A record less makes no name double. -/
theorem Updated.uniq_clear (h : Updated t none i i') (hu : Uniq i.slots)
    (hs : i.slots[t]? = some (some (name, ino))) : Uniq i'.slots := by
  rw [eq_set_of_getElem? (List.getElem?_eq_some_iff.mp hs).1 h.getElem?]
  exact hu.clear t

end Record

/-! ## 3. Steps of one inode

A step changes one inode and perhaps the volume.  Whether it is a directory, and which, does not
change, so the space changes in the entries of that directory or in one count. -/

section Steps

variable {d : Fs Nat} {k : Nat} {i : Inode} {c : Ctx}

theorem DirStep.fields {i i' : Inode} (h : DirStep i i') : i'.i_ino = i.i_ino ∧
    i'.i_mode = i.i_mode ∧ i'.i_nlink = i.i_nlink ∧ i'.dead = i.dead := by
  obtain ⟨_, _, _, _, _, rfl⟩ := h
  exact ⟨rfl, rfl, rfl, rfl⟩

/-- A step does not make or unmake a directory. -/
theorem Fs.isDir_set (hk : d.inodes k = some i) (h : DirStep i c.inode) (j : Nat) :
    (d.set k c).isDir j = d.isDir j := by
  obtain ⟨-, hmode, -, hdead⟩ := h.fields
  rcases eq_or_ne j k with rfl | hne
  · rw [Fs.isDir_of (d := d) hk, Fs.isDir_of (Function.update_self j (some c.inode) d.inodes),
      hmode, hdead]
  · simp only [Fs.isDir, Fs.set, Function.update_of_ne hne]

/-- The space after a directory was changed. -/
theorem Fs.space_set (hk : d.inodes k = some i) (h : DirStep i c.inode) :
    (d.set k c).space = { d.space with
      entry := fun q => if q.1 = k then (if d.isDir k then lookup c.inode.slots q.2 else none)
        else d.entry q } := by
  obtain ⟨-, -, hnlink, -⟩ := h.fields
  simp only [Fs.space, Fs.isDir_set hk h, Space.mk.injEq, true_and]
  constructor
  · funext j
    rcases eq_or_ne j k with rfl | hne
    · simp only [Fs.set, Function.update_self, hk, Option.map_some, hnlink]
    · simp only [Fs.set, Function.update_of_ne hne]
  · funext q
    simp only [Fs.entry, Fs.isDir_set hk h]
    by_cases hq : q.1 = k
    · rw [if_pos hq, hq, Fs.set_inode]
    · rw [if_neg hq, Fs.set_inode_of_ne d hq]

/-- A directory whose table stays. -/
theorem Fs.space_same (hk : d.inodes k = some i) (h : DirStep i c.inode)
    (hs : c.inode.slots = i.slots) : (d.set k c).space = d.space := by
  rw [Fs.space_set hk h, hs]
  simp only [Fs.space, Space.mk.injEq, true_and]
  funext q
  by_cases hq : q.1 = k
  · rw [if_pos hq, Fs.entry, hq, Fs.inode_of hk]
  · rw [if_neg hq]

/-- A directory whose table changes at one name. -/
theorem Fs.space_update (hk : d.inodes k = some i) (hdir : d.isDir k = true)
    (h : DirStep i c.inode) {name : List UInt8} {o : Option Nat}
    (hs : lookup c.inode.slots = Function.update (lookup i.slots) name o) :
    (d.set k c).space = { d.space with entry := Function.update d.entry (k, name) o } := by
  rw [Fs.space_set hk h, hs]
  simp only [Space.mk.injEq, true_and]
  funext q
  obtain ⟨j, name'⟩ := q
  by_cases hj : j = k
  · subst hj
    rw [if_pos rfl, if_pos hdir]
    by_cases hn : name' = name
    · rw [hn, Function.update_self, Function.update_self]
    · rw [Function.update_of_ne hn, Function.update_of_ne (fun e => hn (Prod.mk.inj e).2),
        Fs.entry_of_isDir hdir, Fs.inode_of hk]
  · rw [if_neg hj, Function.update_of_ne (fun e => hj (Prod.mk.inj e).1)]

/-- A change of the link count and the times.  The source changes both at once: the change time is
set wherever a link is counted. -/
def LinkStep (f : Inode → Inode) : Prop := ∀ i, ∃ nlink ctime,
  f i = { i with i_nlink := nlink, i_ctime := ctime }

theorem inc_linkStep : LinkStep inode_inc_link_count := fun i => ⟨_, i.i_ctime, rfl⟩

theorem dec_linkStep : LinkStep inode_dec_link_count := fun i => ⟨_, i.i_ctime, rfl⟩

theorem ctime_linkStep (now : Nat) : LinkStep fun i => { i with i_ctime := now } :=
  fun i => ⟨i.i_nlink, now, rfl⟩

/-- A count above `0` goes down by one. -/
theorem toNat_dec {i : Inode} {n : Nat} (h : i.i_nlink.toNat = n + 1) :
    (inode_dec_link_count i).i_nlink.toNat = n := by
  have hlt := i.i_nlink.isLt
  have he : (inode_dec_link_count i).i_nlink = i.i_nlink - 1 := rfl
  rw [he, BitVec.toNat_sub]
  have h1 : (1 : BitVec 32).toNat = 1 := rfl
  omega

/-- Two such changes are one. -/
theorem LinkStep.comp {f g : Inode → Inode} (hg : LinkStep g) (hf : LinkStep f) :
    LinkStep (g ∘ f) := by
  intro i
  obtain ⟨_, _, he⟩ := hf i
  obtain ⟨nlink, ctime, he'⟩ := hg (f i)
  exact ⟨nlink, ctime, by rw [Function.comp_apply, he', he]⟩

/-- Counts and times are not in the slots. -/
theorem LinkStep.slots {f : Inode → Inode} (h : LinkStep f) (i : Inode) : (f i).slots = i.slots := by
  obtain ⟨_, _, he⟩ := h i
  rw [he]
  rfl

theorem LinkStep.sameDir {f : Inode → Inode} (h : LinkStep f) (i : Inode) : SameDir i (f i) := by
  obtain ⟨_, _, he⟩ := h i
  rw [he]
  exact ⟨rfl, rfl⟩

/-- A count does not decide what is a directory. -/
theorem Fs.isDir_modify (hk : d.inodes k = some i) {f : Inode → Inode} (hf : LinkStep f) (j : Nat) :
    (d.modify k f).isDir j = d.isDir j := by
  rcases eq_or_ne j k with rfl | hne
  · obtain ⟨_, _, he⟩ := hf i
    rw [Fs.isDir_of (d := d) hk, Fs.isDir_of (Function.update_self j _ d.inodes), Fs.inode_of hk, he]
  · simp only [Fs.isDir, Fs.modify, Function.update_of_ne hne]

/-- The space after a link count was changed. -/
theorem Fs.space_modify (hk : d.inodes k = some i) {f : Inode → Inode} (hf : LinkStep f) :
    (d.modify k f).space =
      { d.space with nlink := Function.update d.space.nlink k (some (f i).i_nlink.toNat) } := by
  have hslots : ∀ j, ((d.modify k f).inode j).slots = (d.inode j).slots := by
    intro j
    rcases eq_or_ne j k with rfl | hne
    · rw [Fs.modify_inode, hf.slots]
    · rw [Fs.modify_inode_of_ne d hne]
  simp only [Fs.space, Fs.isDir_modify hk hf, Space.mk.injEq, true_and]
  constructor
  · funext j
    rcases eq_or_ne j k with rfl | hne
    · simp only [Fs.modify, Function.update_self, Option.map_some, Fs.inode_of hk]
    · simp only [Fs.modify, Function.update_of_ne hne]
  · funext q
    simp only [Fs.entry, Fs.isDir_modify hk hf, hslots]

/-! ## 4. What steps keep

`Fs.Keeps` is for chains of steps that only add: every record found before is found after, in the
same slot. -/

/-- The same inodes and directories, these still well formed, and every record in use still where it
was.  Deletions are not such steps. -/
structure Fs.Keeps (d d' : Fs Nat) : Prop where
  used : ∀ j i, d.inodes j = some i → ∃ i', d'.inodes j = some i' ∧ i'.i_ino = i.i_ino
  isDir : ∀ j, d'.isDir j = d.isDir j
  dirs : d'.DirsOk
  slots : ∀ (j t : Nat) (e : List UInt8 × Nat), (d.inode j).slots[t]? = some (some e) →
    (d'.inode j).slots[t]? = some (some e)

/-- Steps that keep compose. -/
theorem Fs.Keeps.trans {d d' d'' : Fs Nat} (h : d.Keeps d') (h' : d'.Keeps d'') : d.Keeps d'' where
  used j i hj := by
    obtain ⟨i', hj', he⟩ := h.used j i hj
    obtain ⟨i'', hj'', he'⟩ := h'.used j i' hj'
    exact ⟨i'', hj'', he'.trans he⟩
  isDir j := (h'.isDir j).trans (h.isDir j)
  dirs := h'.dirs
  slots j t e hs := h'.slots j t e (h.slots j t e hs)

/-- The volume alone changes. -/
theorem Fs.DirsOk.keeps_vol (h : d.DirsOk) (v : Vol) : d.Keeps { d with vol := v } where
  used _ i hj := ⟨i, hj, rfl⟩
  isDir _ := rfl
  dirs := h
  slots _ _ _ hs := hs

theorem Fs.DirsOk.set (h : d.DirsOk) (hk : d.inodes k = some i) (hstep : DirStep i c.inode)
    (hok : d.isDir k = true → DirOk c.inode ∧ Uniq c.inode.slots) : (d.set k c).DirsOk := by
  intro j hj
  rw [Fs.isDir_set hk hstep] at hj
  rcases eq_or_ne j k with rfl | hne
  · rw [Fs.set_inode]
    exact hok hj
  · rw [Fs.set_inode_of_ne d hne]
    exact h j hj

/-- No inode goes. -/
theorem Fs.set_some (d : Fs Nat) (k : Nat) (c : Ctx) {j : Nat} {i : Inode} (hj : d.inodes j = some i) :
    ∃ i', (d.set k c).inodes j = some i' := by
  rcases eq_or_ne j k with rfl | hne
  · exact ⟨c.inode, Function.update_self j _ d.inodes⟩
  · exact ⟨i, (Function.update_of_ne hne _ d.inodes).trans hj⟩

/-- A directory changes, or what is no directory. -/
theorem Fs.DirsOk.keeps_set (h : d.DirsOk) (hk : d.inodes k = some i) (hstep : DirStep i c.inode)
    (hok : d.isDir k = true → DirOk c.inode ∧ Uniq c.inode.slots)
    (hslots : ∀ (t : Nat) (e : List UInt8 × Nat), i.slots[t]? = some (some e) →
      c.inode.slots[t]? = some (some e)) : d.Keeps (d.set k c) where
  used j i' hj := by
    rcases eq_or_ne j k with rfl | hne
    · obtain rfl := Option.some.inj (hk.symm.trans hj)
      exact ⟨c.inode, Function.update_self j _ d.inodes, hstep.fields.1⟩
    · exact ⟨i', (Function.update_of_ne hne _ d.inodes).trans hj, rfl⟩
  isDir := Fs.isDir_set hk hstep
  dirs := h.set hk hstep hok
  slots j t e hs := by
    rcases eq_or_ne j k with rfl | hne
    · rw [Fs.set_inode]
      rw [Fs.inode_of hk] at hs
      exact hslots t e hs
    · rw [Fs.set_inode_of_ne d hne]
      exact hs

theorem Fs.DirsOk.keeps_modify (h : d.DirsOk) (hk : d.inodes k = some i) {f : Inode → Inode}
    (hf : LinkStep f) : d.Keeps (d.modify k f) where
  used j i' hj := by
    rcases eq_or_ne j k with rfl | hne
    · obtain rfl := Option.some.inj (hk.symm.trans hj)
      refine ⟨f (d.inode j), Function.update_self j _ d.inodes, ?_⟩
      obtain ⟨_, _, he⟩ := hf i
      rw [Fs.inode_of hk, he]
    · exact ⟨i', (Function.update_of_ne hne _ d.inodes).trans hj, rfl⟩
  isDir := Fs.isDir_modify hk hf
  dirs j hj := by
    rw [Fs.isDir_modify hk hf] at hj
    rcases eq_or_ne j k with rfl | hne
    · rw [Fs.modify_inode, hf.slots]
      exact ⟨((hf.sameDir (d.inode j)).unchanged (h j hj).1).ok, (h j hj).2⟩
    · rw [Fs.modify_inode_of_ne d hne]
      exact h j hj
  slots j t e hs := by
    rcases eq_or_ne j k with rfl | hne
    · rw [Fs.modify_inode, hf.slots]
      exact hs
    · rw [Fs.modify_inode_of_ne d hne]
      exact hs

/-- A scan changes the volume alone. -/
theorem Fs.set_of_ticked (hk : d.inodes k = some i) (h : Ticked (d.ctx k) c) :
    d.set k c = { d with vol := c.v } := by
  have hi : c.inode = i := h.inode.trans (Fs.inode_of hk)
  simp only [Fs.set, hi, Fs.mk.injEq, true_and]
  rw [← hk, Function.update_eq_self]

end Steps

/-! ## 5. What stays

`Fs.Frame` is weaker and holds of deletions too: the same inodes under the same numbers, of the same
type, and the same inode map. -/

/-- What an inode is, whatever it holds. -/
def Inode.kind (i : Inode) : Nat × BitVec 16 × Bool := (i.i_ino, i.i_mode, i.dead)

/-- The same volume, with the same inode map, and the same inodes, whatever they hold. -/
structure Fs.Frame (d d' : Fs Nat) : Prop where
  vol : SameVol d.vol d'.vol
  bits : ∀ k, d'.vol.inodeInUse k = d.vol.inodeInUse k
  kind : ∀ j, (d'.inodes j).map Inode.kind = (d.inodes j).map Inode.kind

section Frame

variable {d d' d'' : Fs Nat} {k : Nat} {i : Inode} {c : Ctx}

/-- Nothing changed. -/
theorem Fs.Frame.refl (d : Fs Nat) : d.Frame d := ⟨SameVol.refl _, fun _ => rfl, fun _ => rfl⟩

/-- One change after another. -/
theorem Fs.Frame.trans (h : d.Frame d') (h' : d'.Frame d'') : d.Frame d'' :=
  ⟨h.vol.trans h'.vol, fun k => (h'.bits k).trans (h.bits k), fun j => (h'.kind j).trans (h.kind j)⟩

/-- What was in core still is, as the same kind of inode. -/
theorem Fs.Frame.after (h : d.Frame d') (hk : d.inodes k = some i) :
    ∃ i', d'.inodes k = some i' ∧ i'.kind = i.kind := by
  have he := h.kind k
  rw [hk, Option.map_some] at he
  exact Option.map_eq_some_iff.mp he

/-- And what is in core was so before. -/
theorem Fs.Frame.before (h : d.Frame d') (hk : d'.inodes k = some i) :
    ∃ i', d.inodes k = some i' ∧ i.kind = i'.kind := by
  have he := h.kind k
  rw [hk, Option.map_some] at he
  obtain ⟨i', hi', he'⟩ := Option.map_eq_some_iff.mp he.symm
  exact ⟨i', hi', he'.symm⟩

/-- The directories are the same. -/
theorem Fs.Frame.isDir (h : d.Frame d') (j : Nat) : d'.isDir j = d.isDir j := by
  have hk := h.kind j
  unfold Fs.isDir
  cases hd : d.inodes j with
  | none =>
    rw [hd, Option.map_none, Option.map_eq_none_iff] at hk
    rw [hk]
  | some i =>
    obtain ⟨i', hi', he⟩ := h.after hd
    simp only [Inode.kind, Prod.mk.injEq] at he
    rw [hi']
    simp only [he]

/-- Of a directory only what it holds changes. -/
theorem Fs.frame_set (hk : d.inodes k = some i) (hv : BlockStep d.vol c.v)
    (h : DirStep i c.inode) : d.Frame (d.set k c) where
  vol := hv.sameVol
  bits := hv.inodeInUse
  kind j := by
    rcases eq_or_ne j k with rfl | hne
    · obtain ⟨hino, hmode, -, hdead⟩ := h.fields
      simp only [Fs.set, Function.update_self, hk, Option.map_some, Inode.kind, hino, hmode, hdead]
    · simp only [Fs.set, Function.update_of_ne hne]

/-- A link count or a time changes. -/
theorem Fs.frame_modify (hk : d.inodes k = some i) {f : Inode → Inode} (hf : LinkStep f) :
    d.Frame (d.modify k f) where
  vol := SameVol.refl _
  bits _ := rfl
  kind j := by
    rcases eq_or_ne j k with rfl | hne
    · obtain ⟨_, _, he⟩ := hf i
      simp only [Fs.modify, Function.update_self, Fs.inode_of hk, hk, Option.map_some, he, Inode.kind]
    · simp only [Fs.modify, Function.update_of_ne hne]

theorem Fs.frame_vol {v : Vol} (hv : BlockStep d.vol v) : d.Frame { d with vol := v } :=
  ⟨hv.sameVol, hv.inodeInUse, fun _ => rfl⟩

end Frame

/-! ## 6. Records

`gas_add_link` and `gas_delete_entry` as steps of the space, each with its failure. -/

section Records

variable {d : Fs Nat} {dir x t : Nat} {name : List UInt8} {i : Inode}

/-- **`gas_add_link` binds the name**, or fails and changes no entry. -/
theorem Fs.DirsOk.add_link (h : d.DirsOk) (hdir : d.isDir dir = true) (hn : IsName name)
    (habs : d.entry (dir, name) = none) (hpos : 0 < x) (hlt : x < 4294967296) :
    let r := gas_add_link (d.ctx dir) name x
    d.Frame (d.set dir r.1) ∧ d.Keeps (d.set dir r.1) ∧
      ((∃ e, r.2 = some e ∧ (d.set dir r.1).space = d.space) ∨
        r.2 = none ∧ (d.set dir r.1).space =
          { d.space with entry := Function.update d.entry (dir, name) (some x) }) := by
  obtain ⟨i, hi⟩ := Fs.isDir_some hdir
  obtain ⟨hok, hu⟩ := h dir hdir
  rw [Fs.entry_of_isDir hdir] at habs
  have hentry : entryOf name x = some (name, x) := by
    rw [entryOf, u32_of_lt hlt, if_neg (by omega)]
  have hvol := gas_add_link_blockStep (c := d.ctx dir) hok hn x
  obtain ⟨hstep, hspec⟩ := gas_add_link_spec (c := d.ctx dir) hok hn x
  dsimp only at hvol hstep hspec ⊢
  generalize gas_add_link (d.ctx dir) name x = r at hvol hstep hspec
  obtain ⟨c, o⟩ := r
  rw [Fs.ctx_inode, Fs.inode_of hi] at hstep hspec
  rw [Fs.inode_of hi] at hu habs
  refine ⟨Fs.frame_set hi hvol hstep, ?_⟩
  rcases hspec with ⟨e, he, hun⟩ | ⟨he, -, hup⟩
  · refine ⟨h.keeps_set hi hstep (fun _ => ⟨hun.ok, ?_⟩) fun t e hs => ?_,
      Or.inl ⟨e, he, Fs.space_same hi hstep hun.slots⟩⟩
    · rw [hun.slots]
      exact hu
    · rw [hun.slots]
      exact hs
  · have huniq := hup.uniq_add hu (locate_eq_none_iff.mpr habs)
    rw [hentry] at hup
    refine ⟨h.keeps_set hi hstep (fun _ => ⟨hup.ok, huniq⟩) fun t e hs => ?_,
      Or.inr ⟨he, Fs.space_update hi hdir hstep (hup.lookup_add habs)⟩⟩
    rw [hup.getElem?, if_neg, hs]
    rintro rfl
    rcases getElem?_hole i.slots with hh | hh
    · rw [hh] at hs
      simp at hs
    · rw [hh] at hs
      simp at hs

/-- **`gas_delete_entry` frees the name**, or fails and changes no entry.  The table keeps its size.
The name is then in no record, since it was in one alone. -/
theorem Fs.DirsOk.delete_entry (h : d.DirsOk) (hdir : d.isDir dir = true)
    (hs : (d.inode dir).slots[t]? = some (some (name, x))) :
    let r := gas_delete_entry (d.ctx dir) (slotPos t).1 (slotPos t).2
    d.Frame (d.set dir r.1) ∧ (d.set dir r.1).DirsOk ∧ (d.inode dir).nslots ≤ r.1.inode.nslots ∧
      ((∃ e, r.2 = some e ∧ (d.set dir r.1).space = d.space) ∨
        r.2 = none ∧ (d.set dir r.1).space =
          { d.space with entry := Function.update d.entry (dir, name) none }) := by
  obtain ⟨i, hi⟩ := Fs.isDir_some hdir
  obtain ⟨hok, hu⟩ := h dir hdir
  have hvol := gas_delete_entry_blockStep (d.ctx dir) (slotPos t).1 (slotPos t).2
  obtain ⟨hstep, hspec⟩ := gas_delete_entry_spec (c := d.ctx dir) hok
    (getElem?_slots_eq_some.mp hs).1
  dsimp only at hvol hstep hspec ⊢
  generalize gas_delete_entry (d.ctx dir) (slotPos t).1 (slotPos t).2 = r at hvol hstep hspec
  obtain ⟨c, o⟩ := r
  rw [Fs.ctx_inode, Fs.inode_of hi] at hstep hspec
  rw [Fs.inode_of hi] at hu hs ⊢
  refine ⟨Fs.frame_set hi hvol hstep, ?_⟩
  rcases hspec with ⟨e, he, hun⟩ | ⟨he, hup⟩
  · refine ⟨h.set hi hstep fun _ => ⟨hun.ok, ?_⟩, ?_,
      Or.inl ⟨e, he, Fs.space_same hi hstep hun.slots⟩⟩
    · rw [hun.slots]
      exact hu
    · rw [← length_slots, ← length_slots, hun.slots]
  · refine ⟨h.set hi hstep fun _ => ⟨hup.ok, hup.uniq_clear hu hs⟩, ?_,
      Or.inr ⟨he, Fs.space_update hi hdir hstep (hup.lookup_clear hu hs)⟩⟩
    rw [← length_slots, ← length_slots,
      eq_set_of_getElem? (List.getElem?_eq_some_iff.mp hs).1 hup.getElem?, List.length_set]

end Records

/-! ## 7. Links and directories

Two facts that join the levels: the count in the space is the field of the inode, and what a tree
enters is not removed. -/

section Links

variable {d d' : Fs Nat} {k x : Nat} {i i' : Inode}

/-- The count of an inode in core. -/
theorem Fs.nlink_of (hk : d.inodes k = some i) : d.space.nlink k = some i.i_nlink.toNat := by
  simp only [Fs.space, hk, Option.map_some]

theorem Fs.nlink_eq (h : d'.space.nlink k = d.space.nlink k) (hk : d.inodes k = some i)
    (hk' : d'.inodes k = some i') : i'.i_nlink = i.i_nlink := by
  rw [Fs.nlink_of hk, Fs.nlink_of hk'] at h
  exact BitVec.eq_of_toNat_eq (Option.some.inj h)

/-- A directory that is held somewhere is not removed. -/
theorem Fs.Named.isDir_of_entry (h : d.Named) {q : Nat × List UInt8} (hq : d.entry q = some x)
    (hmode : S_ISDIR (d.inode x).i_mode = true) : d.isDir x = true := by
  obtain ⟨i, hi⟩ := h.used hq
  rw [Fs.isDir_of hi, ← Fs.inode_of hi, hmode, Bool.true_and, Bool.not_eq_true']
  cases hdead : (d.inode x).dead with
  | false => rfl
  | true =>
    rw [Fs.inode_of hi] at hdead
    obtain ⟨n, hn⟩ := h.tree.used hq
    rw [Fs.nlink_of hi, h.dead x i hi hdead] at hn
    simp at hn

end Links

end GasFs
