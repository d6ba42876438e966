/-
# Listing a directory while it changes

Between the `gas_readdir` calls of one listing other programs enter and remove names.  A record never
moves, `gas_add_link` takes free ones and `gas_delete_entry` clears them, so on one page a listing is a
reader that goes through a table whose slots change one at a time (`Reading.call_step`).

An entry that is in the directory all the time is listed exactly once, and one that is not in it at any
time is not listed (`listed_while_changing`), whatever is entered and removed in between, whatever sizes
the buffers have, and whichever requests fail.

The changes are made by calls that succeed or fail; a call that fails changes at most bytes behind
the end of the directory (`Reading.same`).  What is asked of the directory in between is a predicate
on each state, `P` in `Watched`: for the theorem, that it stays on one page, and that the entry is
there, or is not.

The general argument is in `Lib/Cursor.lean`.  Here its reader is the sequence of `gas_readdir`
calls, with `ctx->pos` divided by 260 for the number of slots passed, and its writers are
`gas_add_link` and `gas_delete_entry`.
-/
import GasFs.Dir.Readdir
import GasFs.Lib.Cursor

namespace GasFs

open Bytes SlotTable Feed

/-- `gas_delete_entry` of the record that `gas_find_entry` finds, as in `gas_unlink` and
`gas_rmdir`.  If the name is not found nothing is done. -/
def delete_name (c : Ctx) (name : List UInt8) : Ctx :=
  match gas_find_entry c name with
  | (some (n, p), c) => (gas_delete_entry c n p).1
  | (none, c) => c

/-- A listing, and what is done to the directory meanwhile, successfully or not, while the directory
meets `P`.  A call that fails is a step too, and so is one that changes nothing. -/
inductive Watched (P : Inode → Prop) (s₀ : Session) : Session → Prop
  | start (hp : P s₀.c.inode) : Watched P s₀ s₀
  | call {s : Session} (h : Watched P s₀ s) (room : Nat) (hp : P (s.call room).c.inode) :
      Watched P s₀ (s.call room)
  | add {s : Session} (h : Watched P s₀ s) (name : List UInt8) (ino : Nat) (hn : IsName name)
      (habs : Absent s.c.inode name) (hp : P (gas_add_link s.c name ino).1.inode) :
      Watched P s₀ { s with c := (gas_add_link s.c name ino).1 }
  | delete {s : Session} (h : Watched P s₀ s) (name : List UInt8) (hn : IsName name)
      (hp : P (delete_name s.c name).inode) : Watched P s₀ { s with c := delete_name s.c name }

/-- The table of the directory, the slots passed, and the entries accepted.  This is the view in
which the listing is a reader of `Lib/Cursor.lean`. -/
def Session.cursor (s : Session) : Cursor (List UInt8) Nat := ⟨s.c.inode.slots, s.pos / 260, s.got⟩

/-- What holds between the calls on a directory that stays on one page: `k` slots have been passed.
The position is 260 times `k`, and the names are unique. -/
structure Reading (s : Session) (k : Nat) : Prop where
  ok : DirOk s.c.inode
  uniq : Uniq s.c.inode.slots
  pos : s.pos = 260 * k
  le : k ≤ s.c.inode.nslots

section

variable {P : Inode → Prop} {s s₀ : Session} {k : Nat} {e : List UInt8 × Nat}

theorem Reading.cursor (h : Reading s k) : s.cursor = ⟨s.c.inode.slots, k, s.got⟩ := by
  rw [Session.cursor, h.pos, Nat.mul_div_cancel_left k (by decide)]

theorem Updated.nslots_le {t : Nat} {o : Option (List UInt8 × Nat)} {i i' : Inode}
    (h : Updated t o i i') : i.nslots ≤ i'.nslots := by
  by_contra hlt
  have hs := h.getElem? i'.nslots
  rw [List.getElem?_eq_none (by rw [length_slots])] at hs
  split_ifs at hs
  rw [eq_comm, List.getElem?_eq_none_iff, length_slots] at hs
  exact hlt hs

/-- **A call goes on from the slot where the previous one stopped.** -/
theorem Reading.call (h : Reading s k) (hone : s.c.inode.i_size ≤ PAGE_CACHE_SIZE) (room : Nat) :
    ∃ n, Reading (s.call room) (k + n) ∧ (s.call room).c.inode = s.c.inode ∧
      (s.call room).got = s.got ++ live ((s.c.inode.slots.drop k).take n) ∧
      ((s.call room).done = true → s.c.inode.nslots ≤ k + n) := by
  obtain ⟨P, m, hdim⟩ := h.ok.dims
  obtain rfl : P = 0 := by
    have hsize := hdim.size
    have hpos := hdim.pos
    have hpage : s.c.inode.i_size ≤ 4096 := hone
    omega
  have hns : s.c.inode.nslots = m := by rw [hdim.nslots, Nat.mul_zero, Nat.zero_add]
  have hk := h.le
  obtain ⟨hin, hcase⟩ := iterate_one_page filldir hdim ⟨room, [], false⟩ (hns ▸ hk)
  replace hin := hin.inode
  unfold Session.call
  rw [h.pos]
  generalize gas_iterate filldir s.c ⟨room, [], false⟩ (260 * k) = r at hin hcase
  have hread : ∀ n, r.pos = 260 * (k + n) → k + n ≤ s.c.inode.nslots →
      Reading ⟨r.c, s.got ++ r.s.got, r.pos, r.err == none && !r.s.full⟩ (k + n) := fun n hpos hle => by
    refine ⟨?_, ?_, hpos, ?_⟩ <;> rw [hin]
    exacts [h.ok, h.uniq, hle]
  dsimp only
  rcases hcase with ⟨e, he, -, hs, hpos⟩ | ⟨he, hs, hpos⟩
  · -- the page could not be read
    refine ⟨0, hread 0 hpos hk, hin, ?_, fun hd => ?_⟩
    · rw [hs, List.take_zero]
      rfl
    · simp [he] at hd
  · obtain ⟨hgot, hfull⟩ := feed_fill (s.c.inode.slots.drop k) room []
    obtain ⟨hle, hall⟩ := feed_le fill (s.c.inode.slots.drop k) (⟨room, [], false⟩ : Fill _)
    have hcons : filldir.consumer = fill := rfl
    rw [hcons] at hs hpos
    generalize feed fill (⟨room, [], false⟩ : Fill _) (s.c.inode.slots.drop k) = r' at *
    rw [List.length_drop, length_slots] at hle hall
    refine ⟨r'.2.1, hread _ hpos (by omega), hin, ?_, fun hd => ?_⟩
    · rw [hs, hgot]
      rfl
    · have hok : r'.2.2 = true := by
        rw [hs, hfull] at hd
        simpa [he] using hd
      have hend := hall hok
      omega

/-- Another directory in place of this one, with its slots.  The number of slots is the same, so the
place of the reader is one in the table still. -/
theorem Reading.same (h : Reading s k) {c : Ctx} (hun : Unchanged s.c.inode c.inode) :
    Reading { s with c := c } k ∧ s.cursor.Step (Session.cursor { s with c := c }) := by
  have hr : Reading { s with c := c } k :=
    ⟨hun.ok, by rw [hun.slots]; exact h.uniq, h.pos, by
      rw [← length_slots, hun.slots, length_slots]
      exact h.le⟩
  refine ⟨hr, ?_⟩
  rw [h.cursor, hr.cursor]
  exact .write _ 0 (fun t _ => by rw [hun.slots]) hr.uniq

/-- One with another slot. -/
theorem Reading.update (h : Reading s k) {c : Ctx} {t : Nat} {o : Option (List UInt8 × Nat)}
    (hup : Updated t o s.c.inode c.inode) (hu : Uniq c.inode.slots) :
    Reading { s with c := c } k ∧ s.cursor.Step (Session.cursor { s with c := c }) := by
  have hr : Reading { s with c := c } k := ⟨hup.ok, hu, h.pos, h.le.trans hup.nslots_le⟩
  refine ⟨hr, ?_⟩
  rw [h.cursor, hr.cursor]
  exact .write _ t (fun x hx => by rw [hup.getElem?, if_neg hx]) hu

/-- **A name is entered, or not.** The slot written is free or behind the end, so no entry that was
passed comes back. -/
theorem Reading.add (h : Reading s k) {name : List UInt8} (hn : IsName name)
    (habs : Absent s.c.inode name) (ino : Nat) :
    Reading { s with c := (gas_add_link s.c name ino).1 } k ∧
      s.cursor.Step (Session.cursor { s with c := (gas_add_link s.c name ino).1 }) := by
  obtain ⟨-, ⟨e, -, hun⟩ | ⟨-, -, hup⟩⟩ := gas_add_link_spec h.ok hn ino
  · exact h.same hun
  · exact h.update hup (hup.uniq_add h.uniq habs)

/-- **A name is removed, or not.** If the entry is found but its chunk cannot be prepared, the
directory is as it was. -/
theorem Reading.delete (h : Reading s k) {name : List UInt8} (hn : IsName name) :
    Reading { s with c := delete_name s.c name } k ∧
      s.cursor.Step (Session.cursor { s with c := delete_name s.c name }) := by
  have hticked := gas_find_entry_ticked s.c name
  unfold delete_name
  cases hf : gas_find_entry s.c name with
  | mk q c =>
    rw [hf] at hticked
    have hin : c.inode = s.c.inode := hticked.inode
    cases q with
    | none =>
      refine h.same ⟨?_, ?_, ?_⟩ <;> dsimp only <;> rw [hin]
      exacts [h.ok, id]
    | some q =>
      obtain ⟨n, p⟩ := q
      obtain ⟨t, ino, hpos, hs⟩ := gas_find_entry_some h.ok hn (by rw [hf])
      have hspec := gas_delete_entry_spec (c := c) (t := t) (by rw [hin]; exact h.ok)
        (by rw [hin]; exact (getElem?_slots_eq_some.mp hs).1)
      rw [hpos, hin] at hspec
      obtain ⟨-, ⟨e, -, hun⟩ | ⟨-, hup⟩⟩ := hspec
      · exact h.same hun
      · refine h.update hup ?_
        rw [eq_set_of_getElem? (List.getElem?_eq_some_iff.mp hs).1 hup.getElem?]
        exact h.uniq.clear t

/-- **A listing goes through a table that changes one slot at a time.** -/
theorem Reading.call_step (h : Reading s k) (hone : s.c.inode.i_size ≤ PAGE_CACHE_SIZE) (room : Nat) :
    (∃ k', Reading (s.call room) k') ∧ s.cursor.Step (s.call room).cursor ∧
      ((s.call room).done = true → (s.call room).cursor.table.length ≤ (s.call room).cursor.pos) := by
  obtain ⟨n, hr, hin, hgot, hdone⟩ := h.call hone room
  refine ⟨⟨_, hr⟩, ?_, fun hd => ?_⟩
  · rw [h.cursor, hr.cursor, hin, hgot]
    exact .read n
  · rw [hr.cursor, hin, length_slots]
    exact hdone hd

theorem Watched.here (h : Watched P s₀ s) : P s.c.inode := by
  cases h <;> assumption

/-- What a listing keeps of an entry that is there all the time: the slot it is in, and whether that
slot was passed.  The entry never moves: a slot in use is changed only by removing it. -/
theorem Watched.tracks (h : Watched (fun i => i.i_size ≤ PAGE_CACHE_SIZE ∧ e ∈ live i.slots) s₀ s)
    (hr : Reading s₀ 0) (hgot : s₀.got = []) : (∃ k, Reading s k) ∧ s.cursor.Tracks e := by
  induction h with
  | start hp =>
    refine ⟨⟨0, hr⟩, ?_⟩
    obtain ⟨i, hi⟩ := List.mem_iff_getElem?.mp (mem_live.mp hp.2)
    rw [hr.cursor, hgot]
    exact ⟨hr.uniq, i, hi, rfl⟩
  | call h room hp ih =>
    obtain ⟨⟨k, hk⟩, ht⟩ := ih
    obtain ⟨hk', hstep, -⟩ := hk.call_step h.here.1 room
    exact ⟨hk', hstep.tracks ht hp.2⟩
  | add h name ino hn habs hp ih =>
    obtain ⟨⟨k, hk⟩, ht⟩ := ih
    obtain ⟨hk', hstep⟩ := hk.add hn habs ino
    exact ⟨⟨k, hk'⟩, hstep.tracks ht hp.2⟩
  | delete h name hn hp ih =>
    obtain ⟨⟨k, hk⟩, ht⟩ := ih
    obtain ⟨hk', hstep⟩ := hk.delete hn
    exact ⟨⟨k, hk'⟩, hstep.tracks ht hp.2⟩

/-- And of one that is not there at any time.  It cannot have been accepted, since it was in no slot
when the slot was passed. -/
theorem Watched.misses (h : Watched (fun i => i.i_size ≤ PAGE_CACHE_SIZE ∧ e ∉ live i.slots) s₀ s)
    (hr : Reading s₀ 0) (hgot : s₀.got = []) : (∃ k, Reading s k) ∧ e ∉ s.cursor.got := by
  induction h with
  | start hp =>
    refine ⟨⟨0, hr⟩, ?_⟩
    rw [hr.cursor, hgot]
    exact List.not_mem_nil
  | call h room hp ih =>
    obtain ⟨⟨k, hk⟩, hno⟩ := ih
    obtain ⟨hk', hstep, -⟩ := hk.call_step h.here.1 room
    exact ⟨hk', hstep.misses hno h.here.2⟩
  | add h name ino hn habs hp ih =>
    obtain ⟨⟨k, hk⟩, hno⟩ := ih
    obtain ⟨hk', hstep⟩ := hk.add hn habs ino
    exact ⟨⟨k, hk'⟩, hstep.misses hno h.here.2⟩
  | delete h name hn hp ih =>
    obtain ⟨⟨k, hk⟩, hno⟩ := ih
    obtain ⟨hk', hstep⟩ := hk.delete hn
    exact ⟨⟨k, hk'⟩, hstep.misses hno h.here.2⟩

/-- **A directory is listed well while it changes.**  As long as it stays on one page: when the last call
refuses nothing, an entry that was there all the time was accepted exactly once; and one that was not there
at any time is not accepted. -/
theorem listed_while_changing {c : Ctx} (hr : Reached Made Absent c) (e : List UInt8 × Nat) :
    (∀ s room, Watched (fun i => i.i_size ≤ PAGE_CACHE_SIZE ∧ e ∈ live i.slots) ⟨c, [], 0, false⟩ s →
      (s.call room).done = true → (s.call room).got.count e = 1) ∧
    ∀ s, Watched (fun i => i.i_size ≤ PAGE_CACHE_SIZE ∧ e ∉ live i.slots) ⟨c, [], 0, false⟩ s →
      e ∉ s.got := by
  have hstart : Reading ⟨c, [], 0, false⟩ 0 :=
    ⟨hr.dirOk fun c hs => hs.spec.1, hr.uniq fun c hs => hs.uniq, rfl, Nat.zero_le _⟩
  refine ⟨fun s room h hdone => ?_, fun s h => (h.misses hstart rfl).2⟩
  obtain ⟨⟨k, hk⟩, ht⟩ := h.tracks hstart rfl
  obtain ⟨-, hstep, hend⟩ := hk.call_step h.here.1 room
  have hin : (s.call room).c.inode = s.c.inode := (hk.call h.here.1 room).choose_spec.2.1
  have hlive : e ∈ live (s.call room).cursor.table := by
    rw [Session.cursor, hin]
    exact h.here.2
  exact (hstep.tracks ht hlive).reported (hend hdone)

/-- Fifteen records fit one page. -/
theorem DirOk.dims_one_page {i : Inode} (h : DirOk i) (hn : i.slots.length ≤ 15) :
    Dims i 0 i.slots.length := by
  obtain ⟨P, m, hdim⟩ := h.dims
  have hpos := hdim.pos
  have hns := hdim.nslots
  rw [length_slots] at hn ⊢
  obtain rfl : P = 0 := by omega
  rw [hns, Nat.mul_zero, Nat.zero_add]
  exact hdim

/-- The directory of the listing below, with `e` in its third slot. -/
abbrev three_slots (e : Option (List UInt8 × Nat)) : Table (List UInt8) Nat :=
  [some (dot, 2), some (dotdot, 1), e]

/-- Three records lie on one page. -/
theorem Built.three_dims {S : Ctx → Prop} {G : Inode → List UInt8 → Prop} {k : Nat}
    {e : Option (List UInt8 × Nat)} {c : Ctx} (h : Built S G k (three_slots e) c) : Dims c.inode 0 3 := by
  have hlen : c.inode.slots.length = 3 := by rw [h.slots]; rfl
  have hdim := h.ok.dims_one_page (by omega)
  rwa [hlen] at hdim

/-- It meets what is asked of it all the time. -/
theorem Built.three_meets {S : Ctx → Prop} {G : Inode → List UInt8 → Prop} {k : Nat}
    {e : Option (List UInt8 × Nat)} {c : Ctx} (h : Built S G k (three_slots e) c) :
    c.inode.i_size ≤ PAGE_CACHE_SIZE ∧ (dotdot, 1) ∈ live c.inode.slots := by
  constructor
  · rw [h.three_dims.size]
    decide
  · rw [h.slots]
    exact mem_live.mpr (by simp)

/-- A directory of a name `a` is listed in two calls.  The first has room for `.` alone; then `a` is
removed and `b` entered, and the second call lists the rest.  The name `b` goes into the slot that
`a` has left. -/
theorem listed_across_changes : ∃ (c : Ctx) (s : Session), Reached Made Absent c ∧
    live c.inode.slots = [(dot, 2), (dotdot, 1), ([97], 5)] ∧ s.got = [(dot, 2)] ∧
    live s.c.inode.slots = [(dot, 2), (dotdot, 1), ([98], 6)] ∧ (s.call 2).done = true ∧
    (s.call 2).got.count (dotdot, 1) = 1 := by
  have ha : IsName [97] := ⟨by decide, by decide, by decide⟩
  have hb : IsName [98] := ⟨by decide, by decide, by decide⟩
  obtain ⟨c0, h0⟩ := built_plain (fun _ h => h) Absent
  obtain ⟨c, -, hc⟩ := h0.add ha (by rw [Absent, h0.slots]; decide) (show 0 < 5 by decide) (by decide)
    (by decide) (by decide)
  replace hc : Built Made Absent 245 (three_slots (some ([97], 5))) c := hc
  -- the first call
  obtain ⟨c1, ⟨t, rfl⟩, hcall⟩ := Session.call_one_page (s := ⟨c, [], 0, false⟩) hc.three_dims rfl
    (Nat.zero_le 3) (hc.room.pgread _) 1
  dsimp only at hcall
  rw [hc.slots] at hcall
  generalize hc1 : ({ c with v := { c.v with tick := t } } : Ctx) = c1 at hcall
  have h1 : Built (· = c1) AnyName 245 (three_slots (some ([97], 5))) c1 := by
    subst hc1
    exact ⟨.start _ rfl, hc.room.ticked t, hc.ok, hc.slots⟩
  -- what is done behind it
  obtain ⟨c2, hdel, h2⟩ := h1.delete ha (s := 2) (by decide) (by decide)
  replace h2 : Built (· = c1) AnyName 244 (three_slots none) c2 := h2
  obtain ⟨c3, hadd, h3⟩ := h2.add hb trivial (show 0 < 6 by decide) (by decide) (by decide) (by decide)
  replace h3 : Built (· = c1) AnyName 243 (three_slots (some ([98], 6))) c3 := h3
  have hname : delete_name c1 [97] = c2 := by
    have hf : gas_find_entry c1 [97] = (some (slotPos 2), (gas_find_entry c1 [97]).2) :=
      Prod.ext (h1.find ha) rfl
    unfold delete_name
    rw [hf]
    dsimp only
    rw [hdel]
  have hwatch : Watched (fun i => i.i_size ≤ PAGE_CACHE_SIZE ∧ (dotdot, 1) ∈ live i.slots)
      ⟨c, [], 0, false⟩ ⟨c3, [(dot, 2)], 260, false⟩ := by
    have hw0 : Watched (fun i => i.i_size ≤ PAGE_CACHE_SIZE ∧ (dotdot, 1) ∈ live i.slots)
        ⟨c, [], 0, false⟩ ⟨c, [], 0, false⟩ := .start hc.three_meets
    have hw := hw0.call 1 (by
      rw [hcall]
      exact h1.three_meets)
    rw [hcall] at hw
    have hw2 := hw.delete [97] ha (by
      rw [hname]
      exact h2.three_meets)
    rw [hname] at hw2
    have hw3 := hw2.add [98] 6 hb (by
      rw [Absent, h2.slots]
      decide) (by
      rw [hadd]
      exact h3.three_meets)
    rw [hadd] at hw3
    exact hw3
  -- the second call
  obtain ⟨c4, -, hcall4⟩ := Session.call_one_page (s := ⟨c3, [(dot, 2)], 260, false⟩) (k := 1)
    h3.three_dims rfl (by decide) (h3.room.pgread _) 2
  dsimp only at hcall4
  rw [h3.slots] at hcall4
  have hdone : (Session.call ⟨c3, [(dot, 2)], 260, false⟩ 2).done = true := by
    rw [hcall4]
    rfl
  refine ⟨c, ⟨c3, [(dot, 2)], 260, false⟩, hc.reached, ?_, rfl, ?_, hdone,
    (listed_while_changing hc.reached (dotdot, 1)).1 _ _ hwatch hdone⟩
  · rw [hc.slots]
    rfl
  · rw [h3.slots]
    rfl

end

end GasFs
