/-
# Listing a directory

`gas_iterate` feeds the records of a directory to an actor, page by page.  Within a page it stops
at the page's end or when `ctx->pos` reaches `i_size`; but `ctx->pos` grows by 260 for each of the
16 offsets in a page, the last of which is no record, so it runs ahead of the page by 64 bytes a
page.  `Visited` is the list of records one listing looks at; `iterate_eq_feed` says that the
listing feeds just these.

Two consequences.  A slot is `Seen` by a lookup only if the cursor has not run past the end before
it, so `gas_inode_by_name` agrees with `gas_find_entry` exactly on the names without an unseen
record (`lookup_agrees_iff`).  And a directory of more than one page shows the 16th record of its
first page, which is no entry, so its listings are complete and exact if and only if it fits one
page (`listed_iff`).

The drift of the cursor is the heart of both.  After `n` whole pages `ctx->pos` is `4160 * n`, not
`4096 * n`; so the slot with number `t` is reached with a cursor of
`4160 * (t / 15) + 260 * (t % 15)`, and a listing stops when that is at least `i_size`.  On the
first pages this makes no difference.  From the sixth page on the last slots are not reached.

A lookup stops at the first record with its name, so what it does not see behind that record does no
harm.  A listing has no such excuse, but it also sees more than it should: the bytes at offset 3900
are looked at as a record, and in memory behind the page they may look like one.
-/
import GasFs.Dir.Map
import GasFs.Lib.Feed

namespace GasFs

open Bytes SlotTable Feed

/-! ## 1. What a listing visits

The records in the order of the listing, the 16th of each page included. -/

/-- An actor as a consumer of entries.  In the general theory a consumer takes an item or refuses
it, and a refused item ends the feed. -/
def Actor.consumer {σ : Type} (actor : Actor σ) : Consumer σ (List UInt8 × Nat) :=
  fun s e => actor s e.1 e.2

/-- The records looked at from offset `off` and cursor `pos` on: below both ends.  With a cursor
ahead of the place in the page, the second bound is the one that counts. -/
def reach (i_size pos off : Nat) : Nat :=
  min ((PAGE_CACHE_SIZE - off + 259) / 260) ((i_size - pos + 259) / 260)

theorem lt_reach {i_size pos off k : Nat} :
    k < reach i_size pos off ↔ off + 260 * k < 4096 ∧ pos + 260 * k < i_size := by
  have h : reach i_size pos off = min ((4096 - off + 259) / 260) ((i_size - pos + 259) / 260) := rfl
  rw [h]
  omega

/-- The inner loop feeds the records of a page, as many as the place in the page and the cursor
allow.  The fuel of the loop is enough: sixteen records begin in a page. -/
theorem iterate_page_eq {σ : Type} (actor : Actor σ) (i_size : Nat) (kaddr : Mem) :
    ∀ (fuel : Nat) (s : σ) (pos off : Nat), reach i_size pos off ≤ fuel →
      let r := feed actor.consumer s
        ((List.range (reach i_size pos off)).map fun k => slotAt kaddr (off + 260 * k))
      iterate_page actor i_size kaddr fuel s pos off = (r.1, pos + 260 * r.2.1, r.2.2)
  | 0, s, pos, off, h => by
    rw [Nat.le_zero.mp h]
    rfl
  | fuel + 1, s, pos, off, h => by
    rw [iterate_page]
    by_cases hgo : off < PAGE_CACHE_SIZE ∧ pos < i_size
    · have hoff : off < 4096 := hgo.1
      have hpos := hgo.2
      have hsucc : reach i_size pos off = reach i_size (pos + 260) (off + 260) + 1 := by
        unfold reach PAGE_CACHE_SIZE
        omega
      have hrec := fun s => iterate_page_eq actor i_size kaddr fuel s (pos + 260) (off + 260) (by omega)
      have htail : ((List.range (reach i_size (pos + 260) (off + 260))).map
            fun k => slotAt kaddr (off + 260 + 260 * k)) =
          ((List.range (reach i_size (pos + 260) (off + 260))).map Nat.succ).map
            fun k => slotAt kaddr (off + 260 * k) := by
        rw [List.map_map]
        refine List.map_congr_left fun k _ => ?_
        simp only [Function.comp_apply]
        congr 1
        omega
      rw [if_pos hgo, hsucc, List.range_succ_eq_map, List.map_cons, Nat.mul_zero, Nat.add_zero,
        ← htail]
      generalize (List.range (reach i_size (pos + 260) (off + 260))).map
        (fun k => slotAt kaddr (off + 260 + 260 * k)) = l at hrec
      unfold gas_dir_emit
      by_cases hde : de_inode kaddr off = 0
      · have hslot : slotAt kaddr off = none := if_pos hde
        rw [hslot, feed]
        simp only [hde, if_true]
        rw [hrec]
        simp only [Prod.mk.injEq, true_and, and_true]
        omega
      · have hslot : slotAt kaddr off = some (cstr kaddr off GAS_MAX_NAME_LEN, de_inode kaddr off) :=
          if_neg hde
        rw [hslot]
        simp only [hde, if_false]
        cases hact : actor s (cstr kaddr off GAS_MAX_NAME_LEN) (de_inode kaddr off) with
        | mk s1 ok =>
          have htake : actor.consumer s (cstr kaddr off GAS_MAX_NAME_LEN, de_inode kaddr off) =
              (s1, ok) := hact
          cases ok with
          | false =>
            rw [feed_refused htake]
            rfl
          | true =>
            rw [feed_taken htake]
            simp only
            rw [hrec]
            simp only [Prod.mk.injEq, true_and, and_true]
            omega
    · rw [if_neg hgo]
      have hz : reach i_size pos off = 0 := by
        have hgo' : ¬(off < 4096 ∧ pos < i_size) := hgo
        unfold reach PAGE_CACHE_SIZE
        omega
      rw [hz]
      rfl

/-- The records a listing from the start of page `n` looks at, if it is never refused.  The cursor
at the start of page `n` is `4160 * n`. -/
def Visited (c : Ctx) (t n : Nat) : List (Option (List UInt8 × Nat)) :=
  (List.range (reach c.inode.i_size (4160 * n) 0)).map fun k =>
    slotAt (c.page_address t n) (260 * k)

/-- The same for `count` pages, read one request after the other.  The answers to the requests are
not looked at here; the pages are those up to the first failure. -/
def Visits (c : Ctx) : Nat → Nat → Nat → List (Option (List UInt8 × Nat))
  | 0, _, _ => []
  | count + 1, t, n => Visited c t n ++ Visits c count (t + 1) (n + 1)

theorem mem_visits {c : Ctx} {o : Option (List UInt8 × Nat)} : ∀ {count t n : Nat},
    o ∈ Visits c count t n ↔ ∃ i < count, o ∈ Visited c (t + i) (n + i)
  | 0, _, _ => by simp [Visits]
  | count + 1, t, n => by
    rw [Visits, List.mem_append, mem_visits]
    constructor
    · rintro (h | ⟨i, hi, h⟩)
      · exact ⟨0, by omega, h⟩
      · exact ⟨i + 1, by omega, by rwa [show t + (i + 1) = t + 1 + i by omega,
          show n + (i + 1) = n + 1 + i by omega]⟩
    · rintro ⟨i, hi, h⟩
      cases i with
      | zero => exact Or.inl h
      | succ i =>
        exact Or.inr ⟨i, by omega, by rwa [show t + 1 + i = t + (i + 1) by omega,
          show n + 1 + i = n + (i + 1) by omega]⟩

theorem visits_ticked (c : Ctx) (t' : Nat) : ∀ count t n : Nat,
    Visits { c with v := { c.v with tick := t' } } count t n = Visits c count t n
  | 0, _, _ => rfl
  | count + 1, t, n => by
    rw [Visits, Visits, visits_ticked c t' count]
    rfl

/-- **A listing feeds what it visits on the pages in front of the first that cannot be read**; `r`
is the number of these pages.  The induction is on the pages, and the consumer may refuse an entry
on any of them. -/
theorem iterate_loop_reads {σ : Type} (actor : Actor σ) : ∀ (count r n : Nat) (c : Ctx) (s : σ)
    (pos : Nat), r ≤ count → (∀ i < r, c.v.env.pgread (c.v.tick + i) = true) →
    (r < count → c.v.env.pgread (c.v.tick + r) = false) →
    (pos = 4160 * n ∨ c.inode.i_size ≤ pos ∧ c.inode.i_size ≤ 4160 * n) →
    (iterate_loop actor count n 0 c s pos).s =
        (feed actor.consumer s (Visits c r c.v.tick n)).1 ∧
      (r = count → (iterate_loop actor count n 0 c s pos).err = none)
  | 0, r, n, c, s, pos, hle, _, _, _ => by
    obtain rfl : r = 0 := Nat.le_zero.mp hle
    exact ⟨rfl, fun _ => rfl⟩
  | count + 1, 0, n, c, s, pos, _, _, hfail, _ => by
    have hf : c.v.env.pgread c.v.tick = false := hfail (Nat.succ_pos count)
    rw [iterate_loop, gas_dir_get_page]
    simp only [hf, Bool.false_eq_true, if_false]
    exact ⟨rfl, fun h => absurd h (Nat.succ_ne_zero count).symm⟩
  | count + 1, r + 1, n, c, s, pos, hle, hread, hfail, hpos => by
    have h0 : c.v.env.pgread c.v.tick = true := hread 0 (Nat.succ_pos r)
    have hreach : reach c.inode.i_size pos 0 = reach c.inode.i_size (4160 * n) 0 := by
      rcases hpos with rfl | ⟨h1, h2⟩
      · rfl
      · unfold reach
        omega
    have hpage := iterate_page_eq actor c.inode.i_size (c.page_address c.v.tick n) 16 s pos 0
      (by unfold reach PAGE_CACHE_SIZE; omega)
    have hvis : (List.range (reach c.inode.i_size pos 0)).map
        (fun k => slotAt (c.page_address c.v.tick n) (0 + 260 * k)) = Visited c c.v.tick n := by
      rw [hreach, Visited]
      simp only [Nat.zero_add]
    rw [hvis] at hpage
    have hlen : (Visited c c.v.tick n).length = reach c.inode.i_size (4160 * n) 0 := by
      simp [Visited]
    have hle' := feed_le actor.consumer (Visited c c.v.tick n) s
    have happ := feed_append actor.consumer (Visited c c.v.tick n)
      (Visits c r (c.v.tick + 1) (n + 1)) s
    have hrec := fun s' pos' => iterate_loop_reads actor count r (n + 1)
      { c with v := { c.v with tick := c.v.tick + 1 } } s' pos' (by omega)
      (fun i hi => by
        have h := hread (i + 1) (by omega)
        rwa [← Nat.add_assoc, Nat.add_right_comm] at h)
      (fun hlt => by
        have h := hfail (by omega)
        rwa [← Nat.add_assoc, Nat.add_right_comm] at h)
    simp only [visits_ticked] at hrec
    rw [iterate_loop, gas_dir_get_page, Visits, happ]
    simp only [h0, if_true]
    rw [hpage]
    generalize feed actor.consumer s (Visited c c.v.tick n) = f at hle'
    obtain ⟨s1, k, _ | _⟩ := f
    · exact ⟨rfl, fun _ => rfl⟩
    · have hk : k = reach c.inode.i_size (4160 * n) 0 := by rw [← hlen]; exact hle'.2 rfl
      have hnext := hrec s1 (pos + 260 * k) (by
        have hdef : reach c.inode.i_size (4160 * n) 0 =
            min ((4096 - 0 + 259) / 260) ((c.inode.i_size - 4160 * n + 259) / 260) := rfl
        rw [hk, hdef]
        omega)
      exact ⟨hnext.1, fun he => hnext.2 (Nat.succ.inj he)⟩

/-- **A listing of whole pages feeds what it visits**, when the pages can be read. -/
theorem iterate_loop_eq {σ : Type} (actor : Actor σ) (count n : Nat) (c : Ctx) (s : σ) (pos : Nat)
    (hr : ∀ i, c.v.env.pgread i = true)
    (hpos : pos = 4160 * n ∨ c.inode.i_size ≤ pos ∧ c.inode.i_size ≤ 4160 * n) :
    (iterate_loop actor count n 0 c s pos).s =
        (feed actor.consumer s (Visits c count c.v.tick n)).1 ∧
      (iterate_loop actor count n 0 c s pos).err = none := by
  obtain ⟨hs, he⟩ := iterate_loop_reads actor count count n c s pos le_rfl (fun i _ => hr _)
    (fun h => absurd h (Nat.lt_irrefl count)) hpos
  exact ⟨hs, he rfl⟩

/-! ## 2. Lookup

`gas_match` refuses the entry it looks for, so a lookup is a search of what is visited. -/

/-- The cursor of a lookup has not run past the end when the slot is reached.  On the first five
pages all slots are seen. -/
def Seen (inode : Inode) (t : Nat) : Prop := 4160 * (t / 15) + 260 * (t % 15) < inode.i_size

/-- **A lookup visits the slots that are seen**, and nothing else under a name.  The bytes behind
the last record of a page begin with the tail, which is blank, so what is read there has the empty
name. -/
theorem mem_visits_iff {c : Ctx} (hd : DirOk c.inode) (hb : Blank c.inode) {name : List UInt8}
    (hn : IsName name) (v t : Nat) :
    some (name, v) ∈ Visits c (gas_dir_pages c.inode) t 0 ↔
      ∃ s, c.inode.slots[s]? = some (some (name, v)) ∧ Seen c.inode s := by
  obtain ⟨P, m, hdim⟩ := hd.dims
  have hm := hdim.le
  have hsize := hdim.size
  rw [mem_visits, hdim.pages]
  simp only [Visited, List.mem_map, List.mem_range, lt_reach, Nat.zero_add]
  constructor
  · rintro ⟨n, hn1, k, ⟨hk, hpos⟩, hs⟩
    have hk15 : k < 15 := by
      -- the 16th record of a page has no name
      by_contra hge
      obtain rfl : k = 15 := by omega
      have hzero : c.page_address (t + n) n 3900 = 0 := by
        rw [page_address_of_lt (by omega)]
        exact hb n 3900 (by omega) (by omega)
      have hname : cstr (c.page_address (t + n) n) 3900 256 = [] := by
        rw [cstr, if_pos hzero]
      unfold slotAt at hs
      split at hs
      · simp at hs
      · exact hn.pos ((Prod.mk.inj (Option.some.inj hs)).1.symm.trans hname)
    have hdiv : (15 * n + k) / 15 = n := by omega
    have hmod : (15 * n + k) % 15 = k := by omega
    refine ⟨15 * n + k, getElem?_slots_eq_some.mpr ⟨?_, ?_⟩, ?_⟩
    · rw [hdim.nslots]
      rcases Nat.lt_or_ge n P with hlt | hge <;> omega
    · rw [Inode.slot, slotPos_add hk15, ← hs]
      exact slotAt_congr fun a _ h2 => (page_address_of_lt (by
        have h260 : a < 260 * k + 260 := h2
        omega)).symm
    · rw [Seen, hdiv, hmod]
      exact hpos
  · rintro ⟨s, hs, hseen⟩
    obtain ⟨hlt, hslot⟩ := getElem?_slots_eq_some.mp hs
    rw [hdim.nslots] at hlt
    refine ⟨s / 15, by omega, s % 15, ⟨by omega, hseen⟩, ?_⟩
    rw [← hslot, Inode.slot]
    refine slotAt_congr fun a _ h2 => page_address_of_lt ?_
    have h260 : a < 260 * (s % 15) + 260 := h2
    omega

/-- `gas_match` stops at the name it looks for.  It says "no more" by returning a value other than
0, and the number is what it has stored. -/
theorem gas_match_eq (m : Match) (name : List UInt8) (ino : Nat) :
    gas_match m name ino = if name = m.name then ({ m with ino := ino }, false) else (m, true) := by
  unfold gas_match
  by_cases hlen : name.length = m.name.length
  · rw [if_neg (not_not.mpr hlen)]
    have hiff : memcmp (ofList m.name) 0 (ofList name) 0 name.length = 0 ↔ name = m.name := by
      rw [memcmp_eq_zero_iff]
      constructor
      · intro h
        refine List.ext_getElem hlen fun k hk hk' => ?_
        have := h k hk
        simpa [ofList, hk, hk'] using this.symm
      · rintro rfl k _
        rfl
    simp only [hiff]
  · rw [if_pos hlen, if_neg fun h => hlen (by rw [h])]

/-- `gas_inode_by_name` looks the name up on the pages in front of the first that cannot be read. -/
theorem gas_inode_by_name_reads {c : Ctx} {r : Nat} (hle : r ≤ gas_dir_pages c.inode)
    (hread : ∀ i < r, c.v.env.pgread (c.v.tick + i) = true)
    (hfail : r < gas_dir_pages c.inode → c.v.env.pgread (c.v.tick + r) = false)
    (name : List UInt8) :
    (gas_inode_by_name c name).1 = (lookup (Visits c r c.v.tick 0) name).getD 0 := by
  have hloop := (iterate_loop_reads gas_match (gas_dir_pages c.inode) r 0 c ⟨0, name⟩ 0 hle hread
    hfail (Or.inl rfl)).1
  rw [feed_search (p := fun e => e.1 = name) (g := fun e => ⟨e.2, name⟩)
    (fun e => by simp [Actor.consumer, gas_match_eq])] at hloop
  have hby : (gas_inode_by_name c name).1 =
      (iterate_loop gas_match (gas_dir_pages c.inode) 0 0 c ⟨0, name⟩ 0).s.ino := rfl
  rw [hby, hloop, lookup, live]
  cases ((Visits c r c.v.tick 0).filterMap id).find? fun e => e.1 = name <;> rfl

/-- **`gas_inode_by_name` looks the name up among the slots it sees.** -/
theorem gas_inode_by_name_eq {c : Ctx} (hio : ∀ n, c.v.env.pgread n = true) (name : List UInt8) :
    (gas_inode_by_name c name).1 =
      (lookup (Visits c (gas_dir_pages c.inode) c.v.tick 0) name).getD 0 :=
  gas_inode_by_name_reads le_rfl (fun _ _ => hio _) (fun h => absurd h (Nat.lt_irrefl _)) name

/-- Lookup and removal agree on a name: `gas_inode_by_name` returns the number in the record that
`gas_find_entry` finds, and `0` exactly when it finds none.  The two functions of the source go
different ways over the same pages, with different ends. -/
def Agree (c : Ctx) (name : List UInt8) : Prop :=
  (∀ q ino, found c name = some (q, ino) → (gas_inode_by_name c name).1 = ino) ∧
    ((gas_inode_by_name c name).1 = 0 ↔ found c name = none)

/-- No record of the name lies at a page `p` and a place `k` in it with
`4160 * p + 260 * k ≥ i_size`.  For a name that is absent there is nothing to see. -/
def AllSeen (inode : Inode) (name : List UInt8) : Prop :=
  ∀ t ino : Nat, inode.slots[t]? = some (some (name, ino)) → Seen inode t

/-- The same of a slot of the table. -/
theorem ino_ne_zero {inode : Inode} {t ino : Nat} {name : List UInt8}
    (h : inode.slots[t]? = some (some (name, ino))) : ino ≠ 0 :=
  slotAt_ino_ne_zero (getElem?_slots_eq_some.mp h).2

theorem Made.blank {c : Ctx} (h : Made c) : DirOk c.inode ∧ Blank c.inode :=
  ⟨h.spec.1, h.spec.2.1⟩

theorem Made.uniq {c : Ctx} (h : Made c) : DirOk c.inode ∧ Uniq c.inode.slots :=
  ⟨h.spec.1, h.spec.2.2⟩

/-- What a lookup returns, when names are unique: the number of the one record with the name, if it
is seen, and otherwise `0`.  With a name in two records the first of them would decide. -/
theorem inode_by_name_cases {c : Ctx} (hd : DirOk c.inode) (hb : Blank c.inode)
    (hu : Uniq c.inode.slots) (hio : ∀ n, c.v.env.pgread n = true) {name : List UInt8}
    (hn : IsName name) :
    (∃ t ino, c.inode.slots[t]? = some (some (name, ino)) ∧ Seen c.inode t ∧
        (gas_inode_by_name c name).1 = ino) ∨
      ((∀ t ino : Nat, c.inode.slots[t]? = some (some (name, ino)) → ¬Seen c.inode t) ∧
        (gas_inode_by_name c name).1 = 0) := by
  rw [gas_inode_by_name_eq hio]
  have hmem := fun v => mem_visits_iff hd hb hn v c.v.tick
  by_cases hex : ∃ t ino, c.inode.slots[t]? = some (some (name, ino)) ∧ Seen c.inode t
  · obtain ⟨t, ino, hs, hseen⟩ := hex
    refine Or.inl ⟨t, ino, hs, hseen, ?_⟩
    rw [lookup_eq_of_mem (mem_live.mpr ((hmem ino).mpr ⟨t, hs, hseen⟩)), Option.getD_some]
    intro w hw
    obtain ⟨s, hs', -⟩ := (hmem w).mp (mem_live.mp hw)
    obtain rfl := hu.slot_inj hs hs'
    rw [hs] at hs'
    simpa using hs'.symm
  · refine Or.inr ⟨fun t ino hs hseen => hex ⟨t, ino, hs, hseen⟩, ?_⟩
    have hnone : lookup (Visits c (gas_dir_pages c.inode) c.v.tick 0) name = none := by
      rw [lookup_eq_none_iff]
      intro hin
      obtain ⟨⟨k, v⟩, he, hk⟩ := List.mem_map.mp hin
      obtain rfl : k = name := hk
      obtain ⟨s, hs, hseen⟩ := (hmem v).mp (mem_live.mp he)
      exact hex ⟨s, v, hs, hseen⟩
    rw [hnone, Option.getD_none]

/-- **Lookup and removal agree on a name if and only if no record of the name is unseen.** For the
direction from right to left, the record found is the only one, and it is seen. -/
theorem lookup_agrees_iff {c : Ctx} (hr : Reached Made Absent c)
    (hio : ∀ n, c.v.env.pgread n = true) {name : List UInt8} (hn : IsName name) :
    Agree c name ↔ AllSeen c.inode name := by
  have hd := hr.dirOk fun c hs => hs.spec.1
  have hu := hr.uniq fun c hs => hs.uniq
  have hb := hr.blank fun c hs => hs.blank
  have hcases := inode_by_name_cases hd hb hu hio hn
  constructor
  · rintro ⟨-, hzero⟩ t ino hs
    rcases hcases with ⟨t', ino', hs', hseen, -⟩ | ⟨-, h0⟩
    · rw [hu.slot_inj hs hs']
      exact hseen
    · have habs := (found_eq_none hd hn hio).mp (hzero.mp h0)
      exact absurd hs (not_slot_of_locate_none habs t ino)
  · intro hall
    rcases hcases with ⟨t, ino, hs, hseen, hby⟩ | ⟨hno, h0⟩
    · refine ⟨fun q ino' hf => ?_, ?_⟩
      · obtain ⟨t', -, -, hs'⟩ := (found_eq_some hd hn hio).mp hf
        obtain rfl := hu.slot_inj hs hs'
        rw [hs] at hs'
        rw [hby]
        simpa using hs'
      · rw [hby, found_eq_none hd hn hio]
        refine ⟨fun h => absurd h (ino_ne_zero hs), fun h => ?_⟩
        exact absurd hs (not_slot_of_locate_none h t ino)
    · have hnone : found c name = none := by
        rw [found_eq_none hd hn hio]
        cases hl : locate c.inode.slots name with
        | none => exact hl
        | some t =>
          obtain ⟨v, hv, -⟩ := lookup_of_locate hl
          exact absurd (hall t v hv) (hno t v hv)
      exact ⟨fun q ino hf => by rw [hnone] at hf; simp at hf, by simp [h0, hnone]⟩

/-- In the directory of three pages with a free slot, a name of the second page. -/
theorem holed_lookup_agrees : ∃ c, Reached Made Absent c ∧
    c.inode.slots = (nth_table 30).set 7 none ∧
    (Agree c (nth_name 20) ↔ AllSeen c.inode (nth_name 20)) := by
  obtain ⟨c, hb⟩ := built_holed (fun _ h => h) fun _ _ h => h
  exact ⟨c, hb.reached, hb.slots, lookup_agrees_iff hb.reached hb.room.pgread (isName_nth (by omega))⟩

/-- **A lookup does not see the 76th entry of a directory.** -/
theorem lookup_misses : ¬∀ (c : Ctx) (name : List UInt8), Reached Made Absent c →
    (∀ n, c.v.env.pgread n = true) → IsName name → Agree c name := by
  intro hclaim
  obtain ⟨c, hb⟩ := built_nth (fun _ h => h) (fun _ _ h => h) 74 (by omega)
  have hn : IsName (nth_name 73) := isName_nth (by omega)
  have hall := (lookup_agrees_iff hb.reached hb.room.pgread hn).mp
    (hclaim c _ hb.reached hb.room.pgread hn)
  have hslot : c.inode.slots[75]? = some (some (nth_name 73, 76)) := by
    rw [hb.slots]
    rfl
  have hseen := hall 75 76 hslot
  obtain ⟨P, m, hdim⟩ := hb.ok.dims
  have hns : c.inode.nslots = 76 := by rw [← length_slots, hb.slots, length_nth_table]
  have h1 := hdim.pos
  have h2 := hdim.le
  have h3 := hdim.nslots
  have h4 := hdim.size
  rw [Seen] at hseen
  omega

end GasFs
