/-
# Listing a directory in several calls

A program lists a directory with successive `gas_readdir` calls.  Each call fills a buffer, whose
actor refuses the entry for which there is no room, and the next call resumes from the `ctx->pos`
the previous one left.  `readdir_calls` is such a session, with any sizes of buffers.

On one page `ctx->pos` is 260 times the number of slots passed, so the sessions lose nothing and
repeat nothing, whichever reads fail on the way (`OnePage.call`).  A second page brings the
16th record of the first one, four bytes of which lie behind the page: `listed_iff`.

The buffer of a call may have any size, zero included; a call that has no room for the next entry
ends with that entry refused and `ctx->pos` in front of it.  A read that fails ends the call with an
error and leaves `ctx->pos`, so the program may try again.

With more than one page two things go wrong.  The first page shows a 16th record whose number lies
behind the page, in memory that nobody controls, so a listing may return an entry that does not
exist; and the cursor runs ahead, so that the last records of a large directory are not reached.
-/
import GasFs.Dir.Listing

namespace GasFs

open Bytes SlotTable Feed

/-! ## 1. Sessions

A program's calls, one after the other, on a directory that nobody changes. -/

/-- The actor of `getdents`: take the entry if there is room.  A buffer that is full refuses, and
the next call offers the entry again. -/
def filldir : Actor (Fill (List UInt8 × Nat)) := fun s name ino => fill s (name, ino)

/-- What a session has come to: the entries accepted, `ctx->pos`, and whether the last call returned
`0` with nothing refused.  The directory itself is in it, because each request for a page counts. -/
structure Session where
  c : Ctx
  got : List (List UInt8 × Nat)
  pos : Nat
  done : Bool

/-- One more `gas_readdir`, with room for `room` entries.  It goes on from the position in the
session, whatever it is. -/
def Session.call (s : Session) (room : Nat) : Session :=
  let r := gas_iterate filldir s.c ⟨room, [], false⟩ s.pos
  ⟨r.c, s.got ++ r.s.got, r.pos, r.err == none && !r.s.full⟩

/-- A session with these buffers. -/
def readdir_calls (c : Ctx) (rooms : List Nat) : Session :=
  rooms.foldl Session.call ⟨c, [], 0, false⟩

/-- However a listing is split into calls, when the last of them refuses nothing, the entries
accepted are the live ones, each once.  The order may be any; in fact it is that of the slots.  The
buffers may have any sizes, and requests may fail in any of the calls. -/
def Listed (inode : Inode) : Prop := ∀ (c : Ctx) (rooms : List Nat), c.inode = inode →
  (readdir_calls c rooms).done = true → (readdir_calls c rooms).got.Perm (live inode.slots)

/-! ## 2. One page

The invariant is the number of slots passed. -/

/-- What holds between the calls on a directory of one page: `k` slots have been passed.  What was
accepted are the live entries among the slots passed, in their order. -/
structure OnePage (inode : Inode) (s : Session) (k : Nat) : Prop where
  dir : s.c.inode = inode
  pos : s.pos = 260 * k
  le : k ≤ inode.nslots
  got : s.got = live (inode.slots.take k)
  done : s.done = true → k = inode.nslots

/-- A listing of one page from slot `k` on feeds the slots from there, or the page cannot be read
and nothing is fed.  There is one page to ask for, so one request decides. -/
theorem iterate_one_page {σ : Type} (actor : Actor σ) {c : Ctx} {m : Nat}
    (hdim : Dims c.inode 0 m) (s : σ) {k : Nat} (hk : k ≤ m) :
    Ticked c (gas_iterate actor c s (260 * k)).c ∧
      ((∃ e, (gas_iterate actor c s (260 * k)).err = some e ∧ c.v.env.pgread c.v.tick = false ∧
          (gas_iterate actor c s (260 * k)).s = s ∧
          (gas_iterate actor c s (260 * k)).pos = 260 * k) ∨
        ((gas_iterate actor c s (260 * k)).err = none ∧
          (gas_iterate actor c s (260 * k)).s =
            (feed actor.consumer s (c.inode.slots.drop k)).1 ∧
          (gas_iterate actor c s (260 * k)).pos =
            260 * (k + (feed actor.consumer s (c.inode.slots.drop k)).2.1))) := by
  have hm := hdim.le
  have hsize := hdim.size
  have hpage : gas_dir_entry_page (260 * k) = 0 := by
    show 260 * k / 4096 = 0
    omega
  have hoff : gas_dir_entry_offset (260 * k) = 260 * k := by
    show 260 * k % 4096 = 260 * k
    omega
  have hreach : reach c.inode.i_size (260 * k) (260 * k) = m - k := by
    unfold reach PAGE_CACHE_SIZE
    omega
  have hlist : (List.range (m - k)).map
      (fun i => slotAt (c.page_address c.v.tick 0) (260 * k + 260 * i)) = c.inode.slots.drop k := by
    refine List.ext_getElem? fun i => ?_
    rw [List.getElem?_drop, getElem?_slots, hdim.nslots, List.getElem?_map]
    by_cases hi : i < m - k
    · have hslot : slotPos (k + i) = (0, 260 * (k + i)) := by
        have h := slotPos_add (n := 0) (j := k + i) (by omega)
        rwa [Nat.mul_zero, Nat.zero_add] at h
      rw [List.getElem?_range hi, if_pos (by omega), Option.map_some, Inode.slot, hslot,
        Nat.mul_add]
      exact congrArg some (slotAt_congr fun a _ h2 => page_address_of_lt (by omega))
    · rw [if_neg (by omega), List.getElem?_eq_none (by simpa using hi)]
      rfl
  have hfeed := iterate_page_eq actor c.inode.i_size (c.page_address c.v.tick 0) 16 s (260 * k)
    (260 * k) (by rw [hreach]; omega)
  rw [hreach, hlist] at hfeed
  unfold gas_iterate
  rw [hpage, hoff, hdim.pages, iterate_loop, gas_dir_get_page]
  cases c.v.env.pgread c.v.tick with
  | false => exact ⟨⟨_, rfl⟩, Or.inl ⟨_, rfl, rfl, rfl, rfl⟩⟩
  | true =>
    simp only [if_true]
    rw [hfeed]
    generalize feed actor.consumer s (c.inode.slots.drop k) = r
    obtain ⟨s1, j, _ | _⟩ := r
    · exact ⟨⟨_, rfl⟩, Or.inr ⟨rfl, rfl, by simp only; omega⟩⟩
    · exact ⟨⟨_, rfl⟩, Or.inr ⟨rfl, rfl, by show 260 * k + 260 * j = 260 * (k + j); omega⟩⟩

/-- A call that can read the page fills its buffer from there on. -/
theorem Session.call_one_page {s : Session} {m k : Nat} (hdim : Dims s.c.inode 0 m)
    (hpos : s.pos = 260 * k) (hk : k ≤ m) (hread : s.c.v.env.pgread s.c.v.tick = true) (room : Nat) :
    let r := feed fill (⟨room, [], false⟩ : Fill _) (s.c.inode.slots.drop k)
    ∃ c, Ticked s.c c ∧ s.call room = ⟨c, s.got ++ r.1.got, 260 * (k + r.2.1), !r.1.full⟩ := by
  intro r
  obtain ⟨ht, ⟨e, -, hun, -⟩ | ⟨he, hs, hp⟩⟩ := iterate_one_page filldir hdim ⟨room, [], false⟩ hk
  · rw [hread] at hun
    simp at hun
  · have hcons : filldir.consumer = fill := rfl
    rw [hcons] at hs hp
    refine ⟨_, ht, ?_⟩
    unfold Session.call
    rw [hpos]
    dsimp only
    rw [he, hs, hp]
    rfl

/-- **A call passes on from the slot where the previous one stopped.** -/
theorem OnePage.call {inode : Inode} {m : Nat} (hdim : Dims inode 0 m) {s : Session} {k : Nat}
    (h : OnePage inode s k) (room : Nat) : ∃ k', OnePage inode (s.call room) k' := by
  have hns : inode.nslots = m := by rw [hdim.nslots, Nat.mul_zero, Nat.zero_add]
  have hk : k ≤ m := hns ▸ h.le
  have hdim' : Dims s.c.inode 0 m := by rw [h.dir]; exact hdim
  obtain ⟨hin, hcase⟩ := iterate_one_page filldir hdim' ⟨room, [], false⟩ hk
  replace hin := hin.inode
  rw [h.dir] at hin hcase
  unfold Session.call
  rw [h.pos]
  generalize gas_iterate filldir s.c ⟨room, [], false⟩ (260 * k) = r at hin hcase
  rcases hcase with ⟨e, he, -, hs, hpos⟩ | ⟨he, hs, hpos⟩
  · refine ⟨k, hin, hpos, h.le, ?_, fun hd => ?_⟩
    · show s.got ++ r.s.got = _
      rw [hs, List.append_nil]
      exact h.got
    · have hd' : (r.err == none && !r.s.full) = true := hd
      simp [he] at hd'
  · obtain ⟨hgot, hfull⟩ := feed_fill (inode.slots.drop k) room []
    obtain ⟨hle, hall⟩ := feed_le fill (inode.slots.drop k) (⟨room, [], false⟩ : Fill _)
    have hcons : filldir.consumer = fill := rfl
    rw [hcons] at hs hpos
    generalize feed fill (⟨room, [], false⟩ : Fill _) (inode.slots.drop k) = r' at *
    rw [List.length_drop, length_slots] at hle hall
    refine ⟨k + r'.2.1, hin, hpos, by omega, ?_, fun hd => ?_⟩
    · show s.got ++ r.s.got = _
      rw [hs, hgot, h.got, List.nil_append, List.take_add, live_append]
      rfl
    · have hok : r'.2.2 = true := by
        have hd' : (r.err == none && !r.s.full) = true := hd
        rw [hs, hfull] at hd'
        simpa [he] using hd'
      have := hall hok
      have := h.le
      omega

/-- A directory of one page is listed well. -/
theorem listed_one_page {inode : Inode} {m : Nat} (hdim : Dims inode 0 m) : Listed inode := by
  intro c rooms hc hdone
  have hinv : ∀ (rooms : List Nat) (s : Session) (k : Nat), OnePage inode s k →
      ∃ k', OnePage inode (rooms.foldl Session.call s) k' := by
    intro rooms
    induction rooms with
    | nil => exact fun s k h => ⟨k, h⟩
    | cons room rooms ih =>
      intro s k h
      obtain ⟨k', h'⟩ := h.call hdim room
      exact ih _ k' h'
  obtain ⟨k, h⟩ := hinv rooms ⟨c, [], 0, false⟩ 0 ⟨hc, rfl, Nat.zero_le _, by simp, by simp⟩
  have hgot : (readdir_calls c rooms).got = live (inode.slots.take k) := h.got
  rw [hgot, h.done hdone, ← length_slots, List.take_length]

/-! ## 3. More than one page

What is listed there that is no entry. -/

/-- No live entry has the empty name.  What a listing reads in a blank tail has the empty name, so
it is no live entry then. -/
def Named (inode : Inode) : Prop := ∀ e ∈ live inode.slots, e.1 ≠ []

theorem Updated.named {t : Nat} {o : Option (List UInt8 × Nat)} {i i' : Inode} (h : Updated t o i i')
    (hi : Named i) (ho : ∀ e, o = some e → e.1 ≠ []) : Named i' := by
  intro e he
  obtain ⟨s, hs⟩ := List.getElem?_of_mem (mem_live.mp he)
  rw [h.getElem?] at hs
  split at hs
  · exact ho e (Option.some.inj hs)
  · exact hi e (mem_live.mpr (List.mem_of_getElem? hs))

theorem Reached.named {G : Inode → List UInt8 → Prop} {c : Ctx} (h : Reached Made G c) :
    Named c.inode := by
  induction h with
  | start c hs =>
    obtain ⟨c0, dir, h0, hp, hm⟩ := hs
    have hspec := gas_make_empty_spec h0 (fun n a _ => hp n a) dir
    rw [hm] at hspec
    obtain ⟨-, ⟨e, he, -⟩ | ⟨-, -, -, hslots⟩⟩ := hspec
    · simp at he
    · intro e he
      have hmem := mem_live.mp he
      rw [hslots] at hmem
      simp only [List.mem_cons, List.not_mem_nil, or_false, entryOf] at hmem
      rcases hmem with h | h
      · split at h
        · simp at h
        · rw [Option.some.inj h]
          simp [dot]
      · split at h
        · simp at h
        · rw [Option.some.inj h]
          simp [dotdot]
  | add c c' name ino hr hn _ h ih =>
    refine (add_link_success (hr.dirOk fun c hs => hs.spec.1) hn h).2.named ih fun e he => ?_
    unfold entryOf at he
    split at he
    · simp at he
    · rw [← Option.some.inj he]
      exact hn.pos
  | delete c c1 c' name n p hr hn hf h ih =>
    obtain ⟨t, ino, -, -, hup⟩ := delete_found_spec (hr.dirOk fun c hs => hs.spec.1) hn hf h
    exact hup.named ih (by simp)

/-- The volume where the memory behind every page holds ones.  What lies behind a page is not the
file system's, so any value may be there. -/
def ones_vol : Vol := { plain_vol with env := { plain_vol.env with beyond := fun _ _ => 1 } }

/-- The 16th record of a first page with a blank tail: no name, and a number from behind the
page. -/
theorem phantom {c : Ctx} (hb : Blank c.inode) (hv : c.v = ones_vol) (h16 : 3900 < c.inode.i_size) :
    some ([], 16843009) ∈ Visited c c.v.tick 0 := by
  refine List.mem_map.mpr ⟨15, List.mem_range.mpr (lt_reach.mpr ⟨by omega, by omega⟩), ?_⟩
  have hzero : c.page_address c.v.tick 0 3900 = 0 := by
    rw [page_address_of_lt (by omega)]
    exact hb 0 3900 (by omega) (by omega)
  have hone : ∀ a, 4096 ≤ a → c.page_address c.v.tick 0 a = 1 := fun a ha => by
    rw [Ctx.page_address, if_neg (by show ¬a < 4096; omega), hv]
    rfl
  have hname : cstr (c.page_address c.v.tick 0) 3900 256 = [] := by rw [cstr, if_pos hzero]
  have hde : de_inode (c.page_address c.v.tick 0) 3900 = 16843009 := by
    show le32 (c.page_address c.v.tick 0) 4156 = 16843009
    rw [le32, hone _ (by omega), hone _ (by omega), hone _ (by omega), hone _ (by omega)]
    rfl
  show slotAt (c.page_address c.v.tick 0) 3900 = _
  rw [slotAt, if_neg (by rw [hde]; omega), hname, hde]

/-- A directory of several pages shows an entry that is none.  One call with a large buffer shows
it, on the volume with ones behind every page. -/
theorem not_listed {inode : Inode} {P m : Nat} (hdim : Dims inode P m) (hP : 1 ≤ P)
    (hb : Blank inode) (hn : Named inode) : ¬Listed inode := by
  intro hl
  have hsize := hdim.size
  have hm := hdim.pos
  let c : Ctx := ⟨ones_vol, inode, 0⟩
  let l := Visits c (gas_dir_pages inode) c.v.tick 0
  -- one call with room for everything
  have hloop := iterate_loop_eq filldir (gas_dir_pages inode) 0 c ⟨l.length, [], false⟩ 0
    (fun _ => rfl) (Or.inl rfl)
  obtain ⟨hgot, hfull⟩ := feed_fill l l.length []
  have hroom := feed_fill_room l l.length [] (Nat.le_refl _)
  have hall := (feed_le fill l (⟨l.length, [], false⟩ : Fill _)).2 hroom
  rw [hroom] at hfull
  rw [hall, List.take_length, List.nil_append] at hgot
  have hs : (gas_iterate filldir c ⟨l.length, [], false⟩ 0).s =
      (feed fill (⟨l.length, [], false⟩ : Fill _) l).1 := hloop.1
  have herr : (gas_iterate filldir c ⟨l.length, [], false⟩ 0).err = none := hloop.2
  have hperm := hl c [l.length] rfl (by
    show ((gas_iterate filldir c ⟨l.length, [], false⟩ 0).err == none &&
      !(gas_iterate filldir c ⟨l.length, [], false⟩ 0).s.full) = true
    rw [herr, hs, hfull]
    rfl)
  have hgot' : (readdir_calls c [l.length]).got = live l := by
    show [] ++ (gas_iterate filldir c ⟨l.length, [], false⟩ 0).s.got = live l
    rw [hs, hgot]
    rfl
  rw [hgot'] at hperm
  have hmem : some (([] : List UInt8), 16843009) ∈ l := by
    refine mem_visits.mpr ⟨0, by rw [hdim.pages]; omega, ?_⟩
    exact phantom (c := c) hb rfl (by show 3900 < inode.i_size; omega)
  exact hn _ (hperm.mem_iff.mp (mem_live.mpr hmem)) rfl

/-- **A directory is listed completely and without duplicates, however the listing is cut, if and
only if it fits one page.** -/
theorem listed_iff {G : Inode → List UInt8 → Prop} {c : Ctx} (hr : Reached Made G c) :
    Listed c.inode ↔ c.inode.i_size ≤ PAGE_CACHE_SIZE := by
  have hd := hr.dirOk fun c hs => hs.spec.1
  have hb := hr.blank fun c hs => hs.blank
  obtain ⟨P, m, hdim⟩ := hd.dims
  have hsize := hdim.size
  have hpos := hdim.pos
  have hle := hdim.le
  show Listed c.inode ↔ c.inode.i_size ≤ 4096
  constructor
  · intro hl
    by_contra hgt
    exact not_listed hdim (by omega) hb hr.named hl
  · intro hone
    obtain rfl : P = 0 := by omega
    exact listed_one_page hdim

/-- The directory of three pages with a free slot, and the one that `built_nth` leaves full on its
first page. -/
theorem holed_listed : ∃ c d : Ctx, Reached Made Absent c ∧ Reached Made Absent d ∧
    c.inode.slots = (nth_table 30).set 7 none ∧ d.inode.slots = nth_table 13 ∧
    (Listed c.inode ↔ c.inode.i_size ≤ PAGE_CACHE_SIZE) ∧
    (Listed d.inode ↔ d.inode.i_size ≤ PAGE_CACHE_SIZE) := by
  obtain ⟨c, hc⟩ := built_holed (fun _ h => h) fun _ _ h => h
  obtain ⟨d, hd⟩ := built_nth (fun _ h => h) (fun _ _ h => h) 13 (by omega)
  exact ⟨c, d, hc.reached, hd.reached, hc.slots, hd.slots, listed_iff hc.reached,
    listed_iff hd.reached⟩

/-- **A directory of 16 entries is not listed well.** -/
theorem sixteen_not_listed : ¬∀ c : Ctx, Reached Made Absent c → Listed c.inode := by
  intro hclaim
  obtain ⟨c, hb⟩ := built_nth (fun _ h => h) (fun _ _ h => h) 14 (by omega)
  obtain ⟨P, m, hdim⟩ := hb.ok.dims
  have hns : c.inode.nslots = 16 := by rw [← length_slots, hb.slots, length_nth_table]
  have hle : c.inode.i_size ≤ 4096 := (listed_iff hb.reached).mp (hclaim c hb.reached)
  have h1 := hdim.pos
  have h2 := hdim.le
  have h3 := hdim.nslots
  have h4 := hdim.size
  omega

end GasFs
