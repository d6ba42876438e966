/-
# When `gas_rename` moves a name

`Rename.lean` tells what a call does once it gets past its error exits.  This file tells which calls
get there, and whether the old record can be freed then, of the state in front of the call: of the
slots the two names have, of the pages and blocks asked for and the answers they get, and of the null
slots on the paths of two chunks.

The requests of a call follow one another in a fixed order, so each has a number:

1. the pages of the old directory up to the one of the old record (`t / 15` is its page);
2. for a directory, its first page, where `..` is;
3. for a directory that is renamed onto another one, all pages of that one;
4. the pages of the new directory up to the one of the new record, or of the hole it will go to;
5. the indirect blocks on the way to the chunk of that page;
6. the indirect blocks on the way to the chunk of the old record.

A failure in front of 5 ends the call with an error, and `gas_rename` has changed nothing.  At 5 it does
so only for a target that does not exist: `gas_set_link` drops the error.  At 6 the error is dropped
too, and the old name stays.  `RenameStops` lists the error exits, `RenameFrees` says that 6 goes well.

Behind the error exits three things are left that go wrong: the old name stays if its chunk is not
ready; a target that exists keeps the inode it had; and `..` of a directory that changes its parent
keeps the old one.  `rename_moves_iff` says that nothing else does.
-/
import GasFs.Namei.Books

namespace GasFs

open Bytes PtrTree SlotTable Namespace

/-! ## 1. The requests of a call

The two slots `t` and `s` are not computed by the call: they are where the names are in the state in
front of it.  `RenameCall.exists_slots` says that there are always such slots, so the condition is
one about every call. -/

/-- The number of the first request for a page of the new name: behind the pages in front of the old
record, and its own; behind the first page of a directory; and behind all pages of a directory that
the call is to replace. -/
def ask_new (d : Fs Nat) (old_inode : Nat) (new_inode : Option Nat) (t : Nat) : Nat :=
  d.vol.tick + t / 15 + 1 +
    if S_ISDIR (d.inode old_inode).i_mode = true then
      1 + (new_inode.map fun new => gas_dir_pages (d.inode new)).getD 0
    else 0

/-- What stops a call with an error, when the old name is in the slot `t` of its directory, and the
new one in the slot `s` of its own, or `s` is the hole it is to go to.  The constructors are the
requests that may be refused, in their order, with the entry that `gas_empty_dir` may see among
them. -/
inductive RenameStops (d : Fs Nat) (old_inode new_dir : Nat) (new_inode : Option Nat) (t s : Nat) : Prop
  | record (h : d.vol.env.pgread (d.vol.tick + t / 15) = false)
  | dotdot (hdir : S_ISDIR (d.inode old_inode).i_mode = true)
      (h : d.vol.env.pgread (d.vol.tick + t / 15 + 1) = false)
  | occupied (hdir : S_ISDIR (d.inode old_inode).i_mode = true) (new : Nat)
      (hnew : new_inode = some new) (r : Nat) (e : List UInt8 × Nat)
      (hr : (d.inode new).slots[r]? = some (some e)) (ho : Occupies (d.inode new) e)
      (h : d.vol.env.pgread (d.vol.tick + t / 15 + 1 + 1 + r / 15) = true)
  | target (new : Nat) (hnew : new_inode = some new)
      (h : d.vol.env.pgread (ask_new d old_inode new_inode t + s / 15) = false)
  | unread (hnew : new_inode = none) (i : Nat) (hi : i ≤ s / 15)
      (h : d.vol.env.pgread (ask_new d old_inode new_inode t + i) = false)
  | chunk (hnew : new_inode = none)
      (h : ¬(d.ctx new_dir).ChunkReady (s / 15) [] d.vol.free.card
        (ask_new d old_inode new_inode t + s / 15 + 1))

/-- The chunk of the new record is ready when it is asked for.  Without this the call fails if the
target is new, and goes on if it is not. -/
def NewReady (d : Fs Nat) (old_inode new_dir : Nat) (new_inode : Option Nat) (t s : Nat) : Prop :=
  (d.ctx new_dir).ChunkReady (s / 15) [] d.vol.free.card
    (ask_new d old_inode new_inode t + s / 15 + 1)

/-- **The chunk of the old record is ready** when it is asked for, behind the chunk of the new one.  If
that one was ready, its path is filled: in the same directory the old record's path may share slots
with it, and in any there are fewer free blocks. -/
structure RenameFrees (d : Fs Nat) (old_dir old_inode new_dir : Nat) (new_inode : Option Nat)
    (t s : Nat) : Prop where
  filled : NewReady d old_inode new_dir new_inode t s →
    (d.ctx old_dir).ChunkReady (t / 15)
      (if old_dir = new_dir then block_to_path d.vol ((s / 15 : Nat) : Int) else [])
      (d.vol.free.card - (d.ctx new_dir).missing (block_to_path d.vol ((s / 15 : Nat) : Int)))
      (ask_new d old_inode new_inode t + s / 15 + 1 +
        (d.ctx new_dir).chunk_requests (s / 15) [] (ask_new d old_inode new_inode t + s / 15 + 1))
  unfilled : ¬NewReady d old_inode new_dir new_inode t s →
    (d.ctx old_dir).ChunkReady (t / 15) [] d.vol.free.card
      (ask_new d old_inode new_inode t + s / 15 + 1 +
        (d.ctx new_dir).chunk_requests (s / 15) [] (ask_new d old_inode new_inode t + s / 15 + 1))

/-- A call on a sound file system, and the slots of its names.  In front of the call, `t` and `s`
are determined by the names and the slots. -/
structure RenameAt (d : Fs Nat) (old_dir : Nat) (old_name : List UInt8) (old_inode new_dir : Nat)
    (new_name : List UInt8) (new_inode : Option Nat) (t s : Nat) : Prop
    extends RenameCall d old_dir old_name old_inode new_dir new_name new_inode where
  sound : d.Sound
  old_slot : (d.inode old_dir).slots[t]? = some (some (old_name, old_inode))
  new_slot : ∀ new, new_inode = some new →
    (d.inode new_dir).slots[s]? = some (some (new_name, new))
  new_hole : new_inode = none → hole (d.inode new_dir).slots = s

section Call

variable {d : Fs Nat} {old_dir old_inode new_dir t s : Nat} {old_name new_name : List UInt8}
  {new_inode : Option Nat}

/-- An entry is in a slot. -/
theorem Fs.exists_slot {dir x : Nat} {name : List UInt8} (h : d.entry (dir, name) = some x) :
    ∃ t : Nat, (d.inode dir).slots[t]? = some (some (name, x)) := by
  rw [Fs.entry_of_isDir (Fs.isDir_of_entry h)] at h
  exact List.mem_iff_getElem?.mp (mem_live.mp (mem_live_of_lookup h))

/-- Every call is of this kind: the slots are there. -/
theorem RenameCall.exists_slots
    (h : RenameCall d old_dir old_name old_inode new_dir new_name new_inode) (hd : d.Sound) :
    ∃ t s, RenameAt d old_dir old_name old_inode new_dir new_name new_inode t s := by
  obtain ⟨t, ht⟩ := Fs.exists_slot h.source
  cases hnew : new_inode with
  | none => exact ⟨t, _, hnew ▸ h, hd, ht, fun _ he => by simp at he, fun _ => rfl⟩
  | some new =>
    obtain ⟨s, hs⟩ := Fs.exists_slot (h.target.trans hnew)
    refine ⟨t, s, hnew ▸ h, hd, ht, fun new' he => ?_, fun he => by simp at he⟩
    rw [← Option.some.inj he]
    exact hs

/-- A directory is scanned for a name that one of its slots holds. -/
theorem RenameCall.nameAt (h : RenameCall d old_dir old_name old_inode new_dir new_name new_inode)
    (hd : d.Sound) {dir r x : Nat} {name : List UInt8} (hdir : d.isDir dir = true) (hn : IsName name)
    (hr : (d.inode dir).slots[r]? = some (some (name, x))) : d.NameAt dir name r x where
  sound := hd
  tree := Fs.hasTree_of_isDir hdir
  ok := (h.named.dirs dir hdir).1
  uniq := (h.named.dirs dir hdir).2
  isName := hn
  slot := hr

/-! ## 2. Up to the new name

The call is followed in the order of its requests.  Each step has the form "it stops here, and this
request was refused, or it goes on with the next request and the same slots". -/

/-- The first page is asked for. -/
theorem gas_dotdot_eq (c : Ctx) : gas_dotdot c =
    (if c.v.env.pgread c.v.tick = true then some (slotPos 1) else none,
      { c with v := { c.v with tick := c.v.tick + 1 } }) := by
  unfold gas_dotdot gas_dir_get_page
  cases c.v.env.pgread c.v.tick <;> rfl

/-- **The records**: the call stops at a page it cannot read, or goes on with the next request.  The
second request is made for a directory alone. -/
theorem rename_find_asked
    (h : RenameAt d old_dir old_name old_inode new_dir new_name new_inode t s) :
    ((∃ d' e, rename_find d old_dir old_name old_inode = (d', .error e)) ∧
      (d.vol.env.pgread (d.vol.tick + t / 15) = false ∨
        S_ISDIR (d.inode old_inode).i_mode = true ∧
          d.vol.env.pgread (d.vol.tick + t / 15 + 1) = false)) ∨
    (rename_find d old_dir old_name old_inode =
        (d.atRequest (d.vol.tick + t / 15 + 1 +
            if S_ISDIR (d.inode old_inode).i_mode = true then 1 else 0),
          .ok (slotPos t, if S_ISDIR (d.inode old_inode).i_mode = true then some (slotPos 1) else none)) ∧
      d.vol.env.pgread (d.vol.tick + t / 15) = true ∧
      (S_ISDIR (d.inode old_inode).i_mode = true →
        d.vol.env.pgread (d.vol.tick + t / 15 + 1) = true)) := by
  obtain ⟨i, hi⟩ := Fs.isDir_some (Fs.isDir_of_entry h.source)
  obtain ⟨io, hio⟩ := h.named.used h.source
  have hfind := (h.nameAt h.sound (Fs.isDir_of_entry h.source) h.isOld.1 h.old_slot).find
  have htick := gas_find_entry_ticked (d.ctx old_dir) old_name
  unfold rename_find
  cases hread : d.vol.env.pgread (d.vol.tick + t / 15) with
  | false =>
    rw [hread, if_neg Bool.false_ne_true] at hfind
    generalize gas_find_entry (d.ctx old_dir) old_name = r at hfind
    obtain ⟨o, c⟩ := r
    obtain rfl : o = none := hfind
    exact Or.inl ⟨⟨_, _, rfl⟩, Or.inl rfl⟩
  | true =>
    rw [hread, if_pos rfl] at hfind
    rw [hfind] at htick ⊢
    dsimp only
    rw [Fs.set_of_ticked hi htick]
    obtain ⟨d1, hd1⟩ : ∃ d1, d1 = d.atRequest (d.vol.tick + t / 15 + 1) := ⟨_, rfl⟩
    have hinode : d1.inode old_inode = d.inode old_inode := by rw [hd1]; rfl
    have hsame : (⟨(d1.ctx old_dir).v, d.inodes⟩ : Fs Nat) = d1 := by rw [hd1]; rfl
    rw [← hd1, hsame, hinode]
    by_cases hmode : S_ISDIR (d.inode old_inode).i_mode = true
    · rw [if_pos hmode, gas_dotdot_eq]
      have hreq : (d1.ctx old_inode).v.env.pgread (d1.ctx old_inode).v.tick =
          d.vol.env.pgread (d.vol.tick + t / 15 + 1) := by rw [hd1]; rfl
      rw [hreq]
      cases hread' : d.vol.env.pgread (d.vol.tick + t / 15 + 1) with
      | false => exact Or.inl ⟨⟨_, _, rfl⟩, Or.inr ⟨hmode, rfl⟩⟩
      | true =>
        refine Or.inr ⟨?_, rfl, fun _ => rfl⟩
        have hset := Fs.set_of_ticked (d := d1) (by rw [hd1]; exact hio) (gas_dotdot_ticked (d1.ctx old_inode))
        rw [gas_dotdot_eq] at hset
        simp only [if_true, hmode]
        rw [hset, hd1]
        rfl
    · rw [if_neg hmode, if_neg hmode, if_neg hmode, hd1]
      exact Or.inr ⟨rfl, rfl, fun hm => absurd hm hmode⟩

/-- `gas_set_link` differs from `gas_get_block` on the page of the record in nothing that counts for the
map; its error is dropped. -/
theorem gas_set_link_asked (c : Ctx) (t ino : Nat) :
    SameMap (gas_get_block c (t / 15) true).c (gas_set_link c (slotPos t).1 (slotPos t).2 ino) := by
  unfold gas_set_link
  dsimp only
  rw [gas_dir_prepare_chunk_eq]
  generalize gas_get_block c (t / 15) true = r
  obtain ⟨c1, _ | e, m, new⟩ := r
  · dsimp only
    rw [gas_dir_commit_chunk_eq]
    exact ⟨rfl, rfl, rfl, rfl⟩
  · exact touch_sameMap c1

/-- Changes of link counts and times leave what was asked for. -/
theorem Fs.Asked.modify {d' : Fs Nat} {k page tick j : Nat} {ok : Bool}
    (h : d.Asked d' k page tick ok) (hj : d'.InCore j) {f : Inode → Inode} (hf : LinkStep f) :
    d.Asked (d'.modify j f) k page tick ok :=
  h.congr rfl (Fs.slot_modify hj hf.keepsTree)

/-- **A target that does not exist**: every page up to the one of the hole is asked for, then the chunk
of that page; if one of them fails, so does the call. -/
theorem rename_into_asked (h : RenameAt d old_dir old_name old_inode new_dir new_name none t s)
    (q : Nat) (dir_de : Option (Nat × Nat)) :
    let r := rename_target (d.atRequest q) old_inode new_dir new_name none dir_de
    (∃ e, r.2 = some e) ∧ ((∃ i ≤ s / 15, d.vol.env.pgread (q + i) = false) ∨
        ¬(d.ctx new_dir).ChunkReady (s / 15) [] d.vol.free.card (q + s / 15 + 1)) ∨
      r.2 = none ∧ d.Asked r.1 new_dir (s / 15) (q + s / 15 + 1) true ∧
        (∀ i ≤ s / 15, d.vol.env.pgread (q + i) = true) ∧
        (d.ctx new_dir).ChunkReady (s / 15) [] d.vol.free.card (q + s / 15 + 1) := by
  obtain ⟨i, hi⟩ := Fs.isDir_some h.dir
  obtain ⟨hok, hu⟩ := h.named.dirs new_dir h.dir
  have hhole := h.new_hole rfl
  unfold rename_target
  dsimp only
  have hscan := gas_add_link_scan (c := (d.atRequest q).ctx new_dir) hok h.isNew.1
    ((d.atRequest q).inode old_inode).i_ino
  generalize gas_add_link ((d.atRequest q).ctx new_dir) new_name
    ((d.atRequest q).inode old_inode).i_ino = r at hscan
  cases hscan with
  | unread c1 ht n hp hr =>
    -- the slots in front of the page are in use, so the hole is on it or behind
    have hle : 15 * n ≤ s := by
      rw [← hhole]
      by_contra hlt
      obtain ⟨e, he, -⟩ := hp _ (Nat.lt_of_not_le hlt)
      rcases getElem?_hole (d.inode new_dir).slots with hh | hh
      · exact absurd (he.symm.trans hh) (by simp)
      · rw [hh] at he
        exact absurd (List.getElem?_eq_some_iff.mp he).1 (Nat.lt_irrefl _)
    exact Or.inl ⟨⟨_, rfl⟩, Or.inl ⟨n, by omega, hr⟩⟩
  | present c1 ht t' v hs hp =>
    refine absurd h.target ?_
    rw [Fs.entry_of_isDir h.dir, lookup_of_mem_live hu (mem_live.mpr (List.mem_of_getElem? hs))]
    simp
  | free c1 hcl t' ht hp hread htick =>
    obtain rfl : t' = s := by rw [← hhole]; exact (hp.hole ht).symm
    obtain ⟨hsame, herr⟩ := got_it_asked c1 t' ((d.atRequest q).inode old_inode).i_ino new_name
    have hcl' : Cleared (d.ctx new_dir) c1 := ⟨hcl.vol, hcl.inode, hcl.pages⟩
    obtain ⟨hasked, hready⟩ := h.sound.asked (Fs.hasTree_of_isDir h.dir) hcl' hsame
    have htick' : c1.v.tick = q + t' / 15 + 1 := htick
    rw [htick'] at hasked hready
    rw [← herr] at hasked hready
    generalize got_it c1 (slotPos t').1 (slotPos t').2 new_name
      ((d.atRequest q).inode old_inode).i_ino = r at hasked hready
    obtain ⟨c2, _ | e⟩ := r
    · refine Or.inr ⟨rfl, ?_, fun i hi => hread i (Nat.lt_succ_of_le hi), hready.mp rfl⟩
      cases dir_de with
      | none => exact hasked
      | some de =>
        exact hasked.modify ⟨c2.inode, Function.update_self _ _ _⟩ inc_linkStep
    · exact Or.inl ⟨⟨_, rfl⟩, Or.inr fun hr => by simpa using hready.mpr hr⟩

/-- The scan of a directory to be replaced stops the call at an entry that it sees, or goes on behind
the last page. -/
theorem rename_empty_asked {new : Nat} {inew : Inode} (hnew : d.inodes new = some inew)
    (hok : DirOk (d.inode new)) (q : Nat) :
    let r := gas_empty_dir ((d.atRequest q).ctx new)
    r.1 = false ∧ (∃ (x : Nat) (e : List UInt8 × Nat), (d.inode new).slots[x]? = some (some e) ∧
        Occupies (d.inode new) e ∧ d.vol.env.pgread (q + x / 15) = true) ∨
      r.1 = true ∧ (d.atRequest q).set new r.2 = d.atRequest (q + gas_dir_pages (d.inode new)) ∧
        ∀ (x : Nat) (e : List UInt8 × Nat), (d.inode new).slots[x]? = some (some e) →
          Occupies (d.inode new) e → d.vol.env.pgread (q + x / 15) = false := by
  have hempty := gas_empty_dir_iff (c := (d.atRequest q).ctx new) hok
  cases he : (gas_empty_dir ((d.atRequest q).ctx new)).1 with
  | false =>
    refine Or.inl ⟨he, ?_⟩
    by_contra hno
    simp only [not_exists, not_and, Bool.not_eq_true] at hno
    rw [hempty.mpr fun x e hs ho => hno x e hs ho] at he
    simp at he
  | true =>
    refine Or.inr ⟨he, ?_, fun x e hs ho => hempty.mp he x e hs ho⟩
    rw [Fs.set_of_ticked (d := d.atRequest q) hnew (gas_empty_dir_ticked _), gas_empty_dir_all he]
    rfl

/-- The same of a call that scans only if a directory is renamed. -/
theorem rename_scan_asked {new : Nat} {inew : Inode} (hnew : d.inodes new = some inew) (q : Nat)
    {dir : Bool} (hok : dir = true → DirOk (d.inode new)) :
    let b := if (if dir = true then some (slotPos 1) else none).isSome = true then
      gas_empty_dir ((d.atRequest q).ctx new) else (true, (d.atRequest q).ctx new)
    b.1 = false ∧ dir = true ∧ (∃ (x : Nat) (e : List UInt8 × Nat),
        (d.inode new).slots[x]? = some (some e) ∧ Occupies (d.inode new) e ∧
          d.vol.env.pgread (q + x / 15) = true) ∨
      b.1 = true ∧ (d.atRequest q).set new b.2 =
          d.atRequest (q + if dir = true then gas_dir_pages (d.inode new) else 0) ∧
        (dir = true → ∀ (x : Nat) (e : List UInt8 × Nat),
          (d.inode new).slots[x]? = some (some e) → Occupies (d.inode new) e →
            d.vol.env.pgread (q + x / 15) = false) := by
  cases dir with
  | false =>
    refine Or.inr ⟨rfl, ?_, fun hf => absurd hf Bool.false_ne_true⟩
    exact Fs.set_of_ticked (d := d.atRequest q) hnew (Ticked.refl _)
  | true =>
    rcases rename_empty_asked hnew (hok rfl) q with ⟨hfalse, hex⟩ | ⟨htrue, hset, hall⟩
    · exact Or.inl ⟨hfalse, rfl, hex⟩
    · exact Or.inr ⟨htrue, hset, fun _ => hall⟩

/-- **The chunk of a target that was found** is asked for, and whether it is ready is told of the state
in front of the call. -/
theorem rename_set_link_asked
    (h : RenameAt d old_dir old_name old_inode new_dir new_name new_inode t s) (q ino : Nat) :
    ∃ ok, d.Asked (d.set new_dir (gas_set_link ((d.atRequest q).ctx new_dir) (slotPos s).1 (slotPos s).2 ino))
        new_dir (s / 15) q ok ∧
      (ok = true ↔ (d.ctx new_dir).ChunkReady (s / 15) [] d.vol.free.card q) := by
  have hticked : Ticked (d.ctx new_dir) ((d.atRequest q).ctx new_dir) := ⟨_, rfl⟩
  obtain ⟨hasked, hready⟩ := h.sound.asked (Fs.hasTree_of_isDir h.dir) hticked.cleared
    (gas_set_link_asked ((d.atRequest q).ctx new_dir) s ino)
  rw [← Option.isNone_iff_eq_none] at hready
  exact ⟨_, hasked, hready⟩

/-- **A target that exists**: a directory is scanned for emptiness, then the pages up to the one of the
record are asked for, then its chunk, whose error is dropped. -/
theorem rename_onto_asked {new : Nat}
    (h : RenameAt d old_dir old_name old_inode new_dir new_name (some new) t s) (q : Nat) :
    let dir := S_ISDIR (d.inode old_inode).i_mode
    let q' := q + if dir = true then gas_dir_pages (d.inode new) else 0
    let r := rename_target (d.atRequest q) old_inode new_dir new_name (some new)
      (if dir = true then some (slotPos 1) else none)
    (∃ e, r.2 = some e) ∧ (dir = true ∧ (∃ (x : Nat) (e : List UInt8 × Nat),
          (d.inode new).slots[x]? = some (some e) ∧ Occupies (d.inode new) e ∧
            d.vol.env.pgread (q + x / 15) = true) ∨
        d.vol.env.pgread (q' + s / 15) = false) ∨
      r.2 = none ∧ (∃ ok, d.Asked r.1 new_dir (s / 15) (q' + s / 15 + 1) ok ∧
        (ok = true ↔ (d.ctx new_dir).ChunkReady (s / 15) [] d.vol.free.card (q' + s / 15 + 1))) ∧
        (dir = true → ∀ (x : Nat) (e : List UInt8 × Nat), (d.inode new).slots[x]? = some (some e) →
          Occupies (d.inode new) e → d.vol.env.pgread (q + x / 15) = false) ∧
        d.vol.env.pgread (q' + s / 15) = true := by
  obtain ⟨inew, hnew⟩ := h.named.used h.target
  have hname := fun q => (h.nameAt h.sound h.dir h.isNew.1 (h.new_slot new rfl)).atRequest q
  have hkind := h.kind
  dsimp only
  generalize S_ISDIR (d.inode old_inode).i_mode = dir at hkind
  -- behind the scan the next request is `q'`
  have hscan := rename_scan_asked hnew q fun hdir => (h.named.dirs new (hkind hdir new rfl)).1
  generalize hq' : q + (if dir = true then gas_dir_pages (d.inode new) else 0) = q' at hscan
  unfold rename_target
  dsimp only at hscan ⊢
  rcases hscan with ⟨hfalse, hdir, hex⟩ | ⟨htrue, hset, hall⟩
  · rw [if_pos hfalse]
    exact Or.inl ⟨⟨_, rfl⟩, Or.inl ⟨hdir, hex⟩⟩
  rw [if_neg (by rw [htrue]; simp), hset]
  have hfind := (hname q').find
  have hreq : (d.atRequest q').vol.env.pgread ((d.atRequest q').vol.tick + s / 15) =
      d.vol.env.pgread (q' + s / 15) := rfl
  rw [hreq] at hfind
  cases hread : d.vol.env.pgread (q' + s / 15) with
  | false =>
    rw [hread, if_neg Bool.false_ne_true] at hfind
    generalize gas_find_entry ((d.atRequest q').ctx new_dir) new_name = r at hfind
    obtain ⟨o, c⟩ := r
    obtain rfl : o = none := hfind
    exact Or.inl ⟨⟨_, rfl⟩, Or.inr rfl⟩
  | true =>
    rw [hread, if_pos rfl] at hfind
    rw [hfind]
    obtain ⟨ok, hasked, hready⟩ := rename_set_link_asked h (q' + s / 15 + 1) old_inode
    refine Or.inr ⟨rfl, ⟨ok, ?_, hready⟩, hall, rfl⟩
    -- the links of the target go down, which leaves what was asked for
    have hcore : ∀ c, (d.set new_dir c).InCore new := by
      intro c
      rcases eq_or_ne new new_dir with rfl | hne
      · exact ⟨_, Function.update_self _ _ _⟩
      · exact ⟨inew, (Function.update_of_ne hne _ d.inodes).trans hnew⟩
    cases dir with
    | false =>
      simp only [Bool.false_eq_true, if_false, Option.isSome_none, Fs.modify_modify]
      exact hasked.modify (hcore _) (dec_linkStep.comp (ctime_linkStep _))
    | true =>
      simp only [if_true, Option.isSome_some, Fs.modify_modify]
      exact hasked.modify (hcore _) ((dec_linkStep.comp dec_linkStep).comp (ctime_linkStep _))

/-- The number of the next request behind the scans of `rename_find`. -/
def ask_target (d : Fs Nat) (old_inode t : Nat) : Nat :=
  d.vol.tick + t / 15 + 1 + if S_ISDIR (d.inode old_inode).i_mode = true then 1 else 0

/-- **A target that does not exist** stops the call, or its chunk has been asked for. -/
theorem rename_target_into
    (h : RenameAt d old_dir old_name old_inode new_dir new_name none t s)
    (hrec : d.vol.env.pgread (d.vol.tick + t / 15) = true)
    (hdot : S_ISDIR (d.inode old_inode).i_mode = true →
      d.vol.env.pgread (d.vol.tick + t / 15 + 1) = true) (dir_de : Option (Nat × Nat)) :
    let r := rename_target (d.atRequest (ask_target d old_inode t)) old_inode new_dir new_name none dir_de
    (∃ e, r.2 = some e) ∧ RenameStops d old_inode new_dir none t s ∨
      r.2 = none ∧ ¬RenameStops d old_inode new_dir none t s ∧ ∃ ok,
        d.Asked r.1 new_dir (s / 15) (ask_new d old_inode none t + s / 15 + 1) ok ∧
        (ok = true ↔ NewReady d old_inode new_dir none t s) := by
  have hask : ask_new d old_inode none t = ask_target d old_inode t := rfl
  dsimp only
  rw [hask]
  rcases rename_into_asked h (ask_target d old_inode t) dir_de with
    ⟨herr, hstop⟩ | ⟨hnone, hasked, hreads, hready⟩
  · refine Or.inl ⟨herr, ?_⟩
    rcases hstop with ⟨i, hi, hr⟩ | hr
    · exact .unread rfl i hi hr
    · exact .chunk rfl hr
  · refine Or.inr ⟨hnone, ?_, true, hasked, iff_of_true rfl hready⟩
    rintro (hr | ⟨hdir, hr⟩ | ⟨-, new, hnew, -⟩ | ⟨new, hnew, -⟩ | ⟨-, i, hi, hr⟩ | ⟨-, hr⟩)
    · exact absurd (hrec.symm.trans hr) (by simp)
    · exact absurd ((hdot hdir).symm.trans hr) (by simp)
    · simp at hnew
    · simp at hnew
    · exact absurd ((hreads i hi).symm.trans hr) (by simp)
    · exact hr hready

/-- **A target that exists** stops the call, or its chunk has been asked for. -/
theorem rename_target_onto {new : Nat}
    (h : RenameAt d old_dir old_name old_inode new_dir new_name (some new) t s)
    (hrec : d.vol.env.pgread (d.vol.tick + t / 15) = true)
    (hdot : S_ISDIR (d.inode old_inode).i_mode = true →
      d.vol.env.pgread (d.vol.tick + t / 15 + 1) = true) :
    let r := rename_target (d.atRequest (ask_target d old_inode t)) old_inode new_dir new_name (some new)
      (if S_ISDIR (d.inode old_inode).i_mode = true then some (slotPos 1) else none)
    (∃ e, r.2 = some e) ∧ RenameStops d old_inode new_dir (some new) t s ∨
      r.2 = none ∧ ¬RenameStops d old_inode new_dir (some new) t s ∧ ∃ ok,
        d.Asked r.1 new_dir (s / 15) (ask_new d old_inode (some new) t + s / 15 + 1) ok ∧
        (ok = true ↔ NewReady d old_inode new_dir (some new) t s) := by
  have hask : ask_new d old_inode (some new) t = ask_target d old_inode t +
      if S_ISDIR (d.inode old_inode).i_mode = true then gas_dir_pages (d.inode new) else 0 := by
    rw [ask_target, ask_new, Option.map_some, Option.getD_some]
    split_ifs
    · rw [Nat.add_assoc, Nat.add_assoc, Nat.add_assoc, Nat.add_assoc, Nat.add_assoc]
    · rfl
  have hocc : S_ISDIR (d.inode old_inode).i_mode = true →
      ask_target d old_inode t = d.vol.tick + t / 15 + 1 + 1 := fun hdir => by
    rw [ask_target, if_pos hdir]
  rcases rename_onto_asked h (ask_target d old_inode t) with
    ⟨herr, hstop⟩ | ⟨hnone, ⟨ok, hasked, hok⟩, hall, hread⟩
  · refine Or.inl ⟨herr, ?_⟩
    rcases hstop with ⟨hdir, x, e, hs, ho, hr⟩ | hr
    · exact .occupied hdir new rfl x e hs ho (by rw [← hocc hdir]; exact hr)
    · exact .target new rfl (by rw [hask]; exact hr)
  · refine Or.inr ⟨hnone, ?_, ok, by rw [hask]; exact hasked, by rw [NewReady, hask]; exact hok⟩
    rintro (hr | ⟨hdir, hr⟩ | ⟨hdir, new', hnew, x, e, hs, ho, hr⟩ | ⟨new', hnew, hr⟩ | ⟨hnew, -⟩ | ⟨hnew, -⟩)
    · exact absurd (hrec.symm.trans hr) (by simp)
    · exact absurd ((hdot hdir).symm.trans hr) (by simp)
    · obtain rfl := Option.some.inj hnew
      rw [← hocc hdir, hall hdir x e hs ho] at hr
      simp at hr
    · rw [hask, hread] at hr
      simp at hr
    · simp at hnew
    · simp at hnew

/-- **Up to where nothing stops it**: the call takes one of its error exits, or the chunk of the new
record has been asked for. -/
theorem rename_enter_asked
    (h : RenameAt d old_dir old_name old_inode new_dir new_name new_inode t s) :
    let r := rename_enter d old_dir old_name old_inode new_dir new_name new_inode
    (∃ d' e, r = (d', .error e)) ∧ RenameStops d old_inode new_dir new_inode t s ∨
      ¬RenameStops d old_inode new_dir new_inode t s ∧ ∃ d2 dir_de,
        r = (d2, .ok (slotPos t, dir_de)) ∧ ∃ ok,
          d.Asked d2 new_dir (s / 15) (ask_new d old_inode new_inode t + s / 15 + 1) ok ∧
          (ok = true ↔ NewReady d old_inode new_dir new_inode t s) := by
  dsimp only
  unfold rename_enter
  rcases rename_find_asked h with ⟨⟨d', e, he⟩, hstop⟩ | ⟨he, hrec, hdot⟩
  · rw [he]
    refine Or.inl ⟨⟨d', e, rfl⟩, ?_⟩
    rcases hstop with hr | ⟨hdir, hr⟩
    · exact .record hr
    · exact .dotdot hdir hr
  have htarget :
      let r := rename_target (d.atRequest (ask_target d old_inode t)) old_inode new_dir new_name new_inode
        (if S_ISDIR (d.inode old_inode).i_mode = true then some (slotPos 1) else none)
      (∃ e, r.2 = some e) ∧ RenameStops d old_inode new_dir new_inode t s ∨
        r.2 = none ∧ ¬RenameStops d old_inode new_dir new_inode t s ∧ ∃ ok,
          d.Asked r.1 new_dir (s / 15) (ask_new d old_inode new_inode t + s / 15 + 1) ok ∧
          (ok = true ↔ NewReady d old_inode new_dir new_inode t s) := by
    cases new_inode with
    | none => exact rename_target_into h hrec hdot _
    | some new => exact rename_target_onto h hrec hdot
  rw [ask_target] at htarget
  rw [he]
  dsimp only at htarget ⊢
  generalize rename_target (d.atRequest _) old_inode new_dir new_name new_inode _ = r at htarget
  obtain ⟨d2, o⟩ := r
  rcases htarget with ⟨⟨e, rfl⟩, hstop⟩ | ⟨rfl, hno, hasked⟩
  · exact Or.inl ⟨⟨d2, e, rfl⟩, hstop⟩
  · exact Or.inr ⟨hno, d2, _, rfl, hasked⟩

/-! ## 3. The old record

By now the chunk of the new record has been asked for.  `Fs.Asked` carries what that left over to
the question whether the old record's chunk is ready, and the answer is in terms of the first
state. -/

/-- The old record is freed exactly when its chunk is ready behind the one of the new record.  By
now the number of the request is known, and so are the slots that were filled. -/
theorem rename_delete_asked
    (h : RenameAt d old_dir old_name old_inode new_dir new_name new_inode t s) {d2 : Fs Nat} {ok : Bool}
    (ha : d.Asked d2 new_dir (s / 15) (ask_new d old_inode new_inode t + s / 15 + 1) ok)
    (hok : ok = true ↔ NewReady d old_inode new_dir new_inode t s) (hdir : d2.isDir old_dir = true) :
    (gas_delete_entry (d2.ctx old_dir) (slotPos t).1 (slotPos t).2).2 = none ↔
      RenameFrees d old_dir old_inode new_dir new_inode t s := by
  obtain ⟨-, herr⟩ := gas_delete_entry_asked (d2.ctx old_dir) t
  have htree := Fs.hasTree_of_isDir hdir
  obtain ⟨-, hready⟩ := @Fs.Sound.asked d2 old_dir (t / 15) ha.sound htree _ _ (Ticked.refl _).cleared
    (SameMap.refl _)
  have hiff := ha.ready_iff h.sound (Fs.hasTree_of_isDir (Fs.isDir_of_entry h.source)) htree (t / 15)
    d2.vol.tick
  rw [herr, hready]
  refine hiff.trans ?_
  rw [ha.tick]
  cases ok with
  | true =>
    simp only [true_and, if_true]
    exact ⟨fun hr => ⟨fun _ => hr, fun hno => absurd (hok.mp rfl) hno⟩, fun hf => hf.filled (hok.mp rfl)⟩
  | false =>
    have hno : ¬NewReady d old_inode new_dir new_inode t s := fun hr => by simpa using hok.mpr hr
    simp only [Bool.false_eq_true, false_and, if_false, Nat.sub_zero]
    exact ⟨fun hr => ⟨fun hy => absurd hy hno, fun _ => hr⟩, fun hf => hf.unfilled hno⟩

/-- **When `gas_rename` moves a name.**  For every call on a sound file system and every failure of
reads and allocations: a call that returns `0` has moved the name, and one that returns an error has
changed nothing, exactly when the call takes an error exit, or the chunk of the old record is ready and
the target either does not exist, the source being a file or staying in its directory, or is another
name of the same inode.  All of it is told of the state in front of the call. -/
theorem rename_moves_iff
    (h : RenameAt d old_dir old_name old_inode new_dir new_name new_inode t s) :
    RenameMoves d old_dir old_name old_inode new_dir new_name new_inode ↔
      RenameStops d old_inode new_dir new_inode t s ∨
        RenameFrees d old_dir old_inode new_dir new_inode t s ∧
        (new_inode = none ∧ (S_ISDIR (d.inode old_inode).i_mode = false ∨ old_dir = new_dir) ∨
          new_inode = some old_inode) := by
  unfold RenameMoves gas_rename
  rcases rename_enter_asked h with ⟨⟨d', e, hr⟩, hstop⟩ | ⟨hgo, d2, dir_de, hr, ok, ha, hok⟩
  · rw [hr]
    exact iff_of_true (rename_enter_error h.toRenameCall hr) (Or.inl hstop)
  · have he := rename_enter_ok h.toRenameCall hr
    have hdir : d2.isDir old_dir = true := (he.keeps.isDir old_dir).trans (Fs.isDir_of_entry h.source)
    have hdel := rename_delete_asked h ha hok hdir
    rw [hr, or_iff_right hgo, ← hdel]
    exact ⟨he.of_moved h.toRenameCall, fun hc => he.moved h.toRenameCall hc.1 hc.2⟩

end Call

/-! ## 4. Two files in the root

A move to a free name and one to a name in use, on the same directory.  The first does what it
should.  In the second the record of `b` still names the inode 3, and the inode has no link any
more. -/

/-- A regular file without blocks. -/
def empty_file (ino : Nat) : Inode :=
  { iget_locked_new ino with i_mode := S_IFREG, i_op := .gas_file_inode_ops }

/-- The root directory, which holds the files 2 and 3 under `a` and `b`. -/
def two_files : Fs Nat where
  vol := plain_vol
  inodes k := if k = 1 then some (filled_dir 1 1 2 [([98], 3), ([97], 2)] 4)
    else if k = 2 then some (empty_file 2) else if k = 3 then some (empty_file 3) else none

/-- The slots of the root: its own two, and two files. -/
theorem two_files_slots : (two_files.inode 1).slots =
    [some (dot, 1), some (dotdot, 1), some ([97], 2), some ([98], 3)] := by decide +kernel

/-- The root is the only directory. -/
theorem two_files_isDir (k : Nat) : two_files.isDir k = true ↔ k = 1 := by
  unfold Fs.isDir two_files
  dsimp only
  split_ifs with h1 h2 h3
  · exact iff_of_true (by decide) h1
  · exact iff_of_false (by decide) h1
  · exact iff_of_false (by decide) h1
  · exact iff_of_false (by decide) h1

/-- All entries there are. -/
theorem two_files_entry (q : Nat × List UInt8) : two_files.entry q =
    if q = (1, [98]) then some 3 else if q = (1, [97]) then some 2
    else if q = (1, dot) ∨ q = (1, dotdot) then some 1 else none := by
  obtain ⟨k, name⟩ := q
  by_cases hk : k = 1
  · subst hk
    rw [Fs.entry_of_isDir ((two_files_isDir 1).mpr rfl), two_files_slots]
    simp only [lookup_cons_some, lookup_nil, Prod.mk.injEq, true_and]
    by_cases h1 : name = [98]
    · rw [h1]
      decide
    · by_cases h2 : name = [97]
      · rw [h2]
        decide
      · rw [if_neg h1, if_neg h2, if_neg (Ne.symm h1), if_neg (Ne.symm h2)]
        by_cases h3 : name = dot
        · rw [if_pos h3.symm, if_pos (Or.inl h3)]
        · rw [if_neg (Ne.symm h3)]
          by_cases h4 : name = dotdot
          · rw [if_pos h4.symm, if_pos (Or.inr h4)]
          · rw [if_neg (Ne.symm h4), if_neg (not_or.mpr ⟨h3, h4⟩)]
  · have hdir : ¬two_files.isDir k = true := fun h => hk ((two_files_isDir k).mp h)
    rw [Fs.entry, if_neg hdir]
    simp [hk]

/-- Two files entered in the root alone. -/
theorem two_files_tree : Tree dot dotdot GAS_ROOT_INO two_files.space := by
  have h0 := tree_root (show dot ≠ dotdot by decide) GAS_ROOT_INO
  have h2 := h0.bind (p := 1) (x := 2) (l := [97]) rfl (by decide) (by simp)
  have h3 := h2.bind (p := 1) (x := 3) (l := [98]) rfl (by decide) (by simp)
  have hspace : two_files.space = ⟨Function.update (Function.update
      (fun x => if x = GAS_ROOT_INO then some 2 else none) 2 (some 1)) 3 (some 1), {GAS_ROOT_INO},
      Function.update (Function.update (fun q => if q = (GAS_ROOT_INO, dot) ∨
        q = (GAS_ROOT_INO, dotdot) then some GAS_ROOT_INO else none) (1, [97]) (some 2))
        (1, [98]) (some 3)⟩ := by
    simp only [Fs.space, Space.mk.injEq]
    refine ⟨funext fun k => ?_, Set.ext fun k => two_files_isDir k, funext fun q => ?_⟩
    · simp only [two_files, Function.update_apply]
      split_ifs <;> first | rfl | omega
    · rw [two_files_entry]
      simp only [Function.update_apply]
  rw [hspace]
  exact h3

/-- The file system is one of named inodes with right counts. -/
theorem two_files_named : two_files.Named where
  ino k i hi := by
    simp only [two_files] at hi
    split_ifs at hi with h1 h2 h3
    · obtain rfl := Option.some.inj hi
      exact ⟨h1.symm, by omega⟩
    · obtain rfl := Option.some.inj hi
      exact ⟨h2.symm, by omega⟩
    · obtain rfl := Option.some.inj hi
      exact ⟨h3.symm, by omega⟩
  dead k i hi hdead := by
    simp only [two_files] at hi
    split_ifs at hi <;> obtain rfl := Option.some.inj hi <;> exact absurd hdead (by decide)
  dirs k hk := by
    obtain rfl := (two_files_isDir k).mp hk
    refine ⟨(filled_dir_ok (by decide) fun e he => ?_).1, ?_⟩
    · simp only [List.mem_cons, List.not_mem_nil, or_false] at he
      rcases he with rfl | rfl <;> exact ⟨by decide, by decide, by decide⟩
    · rw [two_files_slots, Uniq]
      decide
  tree := two_files_tree

/-- A call on the file `a`. -/
theorem two_files_call {name : List UInt8} {o : Option Nat} (hn : IsName name)
    (hname : name ≠ dot ∧ name ≠ dotdot) (ho : two_files.entry (1, name) = o) (hne : [97] ≠ name) :
    RenameCall two_files 1 [97] 2 1 name o where
  named := two_files_named
  isOld := ⟨⟨by decide, by decide, by decide⟩, by decide, by decide⟩
  isNew := ⟨hn, hname⟩
  dir := (two_files_isDir 1).mpr rfl
  source := by rw [two_files_entry]; decide
  target := ho
  ne he := hne (Prod.mk.inj he).2
  kind hdir := absurd hdir (by decide)

/-- Block 4 of the root is the only block held. -/
theorem two_files_slot (k : Nat) (q : List Nat) (hq : shape.IsPath q) (hne : two_files.slot k q ≠ 0) :
    k = 1 ∧ q = [0] := by
  obtain ⟨i, hi, hb⟩ := Fs.slot_ne_zero hne
  rw [two_files.slot_of_blocks hi hb] at hne
  obtain ⟨j, r, rfl⟩ := List.exists_cons_of_ne_nil hq.ne_nil
  have hroot : i.blkaddr j ≠ 0 := fun hz => hne (val_null_below (List.cons_ne_nil j []) hz ⟨r, rfl⟩)
  simp only [two_files] at hi
  split_ifs at hi with h1 h2 h3
  · obtain rfl := Option.some.inj hi
    obtain rfl : j = 0 := by
      by_contra hj
      exact hroot (if_neg hj)
    refine ⟨h1, ?_⟩
    cases r with
    | nil => rfl
    | cons a r =>
      have hlen := (isPath_cons.mp hq).2.1
      simp at hlen
  · obtain rfl := Option.some.inj hi
    exact absurd rfl hroot
  · obtain rfl := Option.some.inj hi
    exact absurd rfl hroot

/-- And its block map agrees with its pointers. -/
theorem two_files_sound : two_files.Sound where
  geometry := plain_geometry
  padded := plain_padded
  one k k' q q' hq hq' hne he := by
    obtain ⟨rfl, rfl⟩ := two_files_slot k q hq hne
    obtain ⟨rfl, rfl⟩ := two_files_slot k' q' hq' (he ▸ hne)
    exact ⟨rfl, rfl⟩
  zone k q hq hne := by
    obtain ⟨rfl, rfl⟩ := two_files_slot k q hq hne
    exact ⟨by decide, by decide⟩
  used k q hq hne := by
    obtain ⟨rfl, rfl⟩ := two_files_slot k q hq hne
    decide

/-- Renamed to `c`, the file moves: the hole is on the page of the old record, whose block is mapped. -/
theorem rename_to_new : RenameMoves two_files 1 [97] 2 1 [99] none := by
  have hcall : RenameAt two_files 1 [97] 2 1 [99] none 2 4 :=
    { two_files_call ⟨by decide, by decide, by decide⟩ (by decide) (by rw [two_files_entry]; decide)
        (by decide) with
      sound := two_files_sound
      old_slot := by rw [two_files_slots]; rfl
      new_slot := fun _ he => by simp at he
      new_hole := fun _ => by rw [two_files_slots]; rfl }
  have hlack : (two_files.ctx 1).lacking (block_to_path two_files.vol ((4 / 15 : Nat) : Int)) [] = 0 := by
    decide +kernel
  have hlack' : (two_files.ctx 1).lacking (block_to_path two_files.vol ((2 / 15 : Nat) : Int))
      (block_to_path two_files.vol ((4 / 15 : Nat) : Int)) = 0 := by decide +kernel
  have hready : NewReady two_files 2 1 none 2 4 :=
    ⟨by decide, fun _ _ => rfl, hlack.trans_le (Nat.zero_le _)⟩
  refine (rename_moves_iff hcall).mpr (Or.inr ⟨⟨fun _ => ?_, fun hno => absurd hready hno⟩,
    Or.inl ⟨rfl, Or.inl (by decide)⟩⟩)
  exact ⟨by decide, fun _ _ => rfl, hlack'.trans_le (Nat.zero_le _)⟩

/-- **A target that exists keeps its inode**: `a` is renamed to `b`, the call returns `0`, and `b` still
names the inode 3, which has lost its link. -/
theorem rename_to_old :
    RenameCall two_files 1 [97] 2 1 [98] (some 3) ∧ two_files.Sound ∧
    (gas_rename two_files 1 [97] 2 1 [98] (some 3)).2 = none ∧
    lookup ((gas_rename two_files 1 [97] 2 1 [98] (some 3)).1.inode 1).slots [98] = some 3 ∧
    ((gas_rename two_files 1 [97] 2 1 [98] (some 3)).1.inode 3).i_nlink = 0 ∧
    ¬RenameMoves two_files 1 [97] 2 1 [98] (some 3) := by
  have hcall : RenameCall two_files 1 [97] 2 1 [98] (some 3) := two_files_call
    ⟨by decide, by decide, by decide⟩ (by decide) (by rw [two_files_entry]; decide) (by decide)
  have hzero : (gas_rename two_files 1 [97] 2 1 [98] (some 3)).2 = none := by decide +kernel
  have hfound : (found ⟨plain_vol, (gas_rename two_files 1 [97] 2 1 [98] (some 3)).1.inode 1, 0⟩
      [98]).map Prod.snd = some 3 := by decide +kernel
  refine ⟨hcall, two_files_sound, hzero, by decide +kernel, by decide +kernel, fun hm => ?_⟩
  unfold RenameMoves at hm
  generalize gas_rename two_files 1 [97] 2 1 [98] (some 3) = r at hm hzero hfound
  obtain ⟨d', o⟩ := r
  obtain rfl : o = none := hzero
  have h2 := hm.target ⟨plain_vol, d'.inode 1, 0⟩ rfl fun _ => rfl
  rw [hfound] at h2
  exact absurd h2 (by decide)

end GasFs
