/-
# Records within their page

The four scans of a directory step through a page 260 bytes at a time, and 260 does not divide 4096.
Here each of them also logs the records it looks at, as pairs of a page and an offset in it; the log
changes nothing else (`find_record_logged_fst` and its like).

`gas_find_entry` and `gas_empty_dir` stop a record before the end of the directory in a page, and
`gas_add_link` a record before the end of the page, so what they log lies within the page.
`gas_iterate` only asks that a record begin within the page and in front of `i_size`.
`scans_in_page_iff` is the exact condition on the size and on `ctx->pos`.

A record that begins at offset 3900 of a page ends 64 bytes behind it.  A directory of more than one
page has that place in each page but the last, and `gas_iterate` looks there; so on such directories
a listing reads behind the page.  The exceptions depend on where the listing begins, since
`ctx->pos` may be any number that a program has sought to.

The theorem is an equivalence.  For the direction that a bad position leads out of the page an actor
is needed that takes every entry, and pages that can be read; both are exhibited.
-/
import GasFs.Dir.Listing

namespace GasFs

open Bytes SlotTable

/-! ## 1. Scans that keep a log

The logged scans are the scans, by induction on their loops. -/

/-- `List.find?`, with the elements looked at.  It stops where `List.find?` stops, so what lies
behind is not in the log. -/
def find_logged (test : Nat → Bool) : List Nat → Option Nat × List Nat
  | [] => (none, [])
  | p :: ps =>
    if test p then (some p, [p])
    else ((find_logged test ps).1, p :: (find_logged test ps).2)

theorem find_logged_fst (test : Nat → Bool) (ps : List Nat) :
    (find_logged test ps).1 = ps.find? test := by
  induction ps with
  | nil => rfl
  | cons p ps ih =>
    rw [find_logged, List.find?_cons]
    cases htest : test p with
    | true => rfl
    | false => exact ih

theorem mem_of_mem_find_logged {test : Nat → Bool} {ps : List Nat} {p : Nat}
    (h : p ∈ (find_logged test ps).2) : p ∈ ps := by
  induction ps with
  | nil => exact h
  | cons q ps ih =>
    rw [find_logged] at h
    split at h
    · exact List.mem_of_mem_take (i := 1) h
    · rcases List.mem_cons.mp h with rfl | h
      · exact List.mem_cons_self
      · exact List.mem_cons_of_mem q (ih h)

/-- `find_record`, with the records looked at.  A page that cannot be read adds nothing to the
log. -/
def find_record_logged (test : Mem → Nat → Bool) :
    Nat → Nat → Ctx → (Option (Nat × Nat) × Ctx) × List (Nat × Nat)
  | 0, _, c => ((none, c), [])
  | count + 1, n, c =>
    match gas_dir_get_page c n with
    | (none, c) => find_record_logged test count (n + 1) c
    | (some kaddr, c) =>
      match find_logged (test kaddr) (records (gas_last_byte c.inode n)) with
      | (some p, l) => ((some (n, p), c), l.map (n, ·))
      | (none, l) =>
        let r := find_record_logged test count (n + 1) c
        (r.1, l.map (n, ·) ++ r.2)

theorem find_record_logged_fst (test : Mem → Nat → Bool) : ∀ (count n : Nat) (c : Ctx),
    (find_record_logged test count n c).1 = find_record test count n c := by
  intro count
  induction count with
  | zero => exact fun n c => rfl
  | succ count ih =>
    intro n c
    rw [find_record_logged, find_record]
    rcases gas_dir_get_page c n with ⟨_ | kaddr, c1⟩
    · exact ih (n + 1) c1
    · have hfst := find_logged_fst (test kaddr) (records (gas_last_byte c1.inode n))
      dsimp only
      generalize find_logged (test kaddr) (records (gas_last_byte c1.inode n)) = r at hfst
      obtain ⟨o, l⟩ := r
      rw [← hfst]
      cases o with
      | none => exact ih (n + 1) c1
      | some p => rfl

/-- The loop of `gas_add_link`, with the records looked at.  The record written is the last of
them. -/
def add_link_logged (name : List UInt8) (ino : Nat) :
    Nat → Nat → Ctx → (Ctx × Option Errno) × List (Nat × Nat)
  | 0, _, c => ((c, some .EINVAL), [])
  | count + 1, n, c =>
    match gas_dir_get_page c n with
    | (none, c) => ((c, some Errno.EIO), [])
    | (some kaddr, c) =>
      match find_logged (add_stops c.inode n name kaddr) (records PAGE_CACHE_SIZE) with
      | (none, l) =>
        let r := add_link_logged name ino count (n + 1) c
        (r.1, l.map (n, ·) ++ r.2)
      | (some p, l) =>
        (if p = gas_last_byte c.inode n then
          got_it { c with inode := c.inode.setPage n (putLe32 · (p + GAS_MAX_NAME_LEN) 0) } n p
            name ino
        else if de_inode kaddr p = 0 then got_it c n p name ino
        else (c, some .EEXIST), l.map (n, ·))

theorem add_link_logged_fst (name : List UInt8) (ino : Nat) : ∀ (count n : Nat) (c : Ctx),
    (add_link_logged name ino count n c).1 = add_link_loop name ino count n c := by
  intro count
  induction count with
  | zero => exact fun n c => rfl
  | succ count ih =>
    intro n c
    rw [add_link_logged, add_link_loop]
    rcases gas_dir_get_page c n with ⟨_ | kaddr, c1⟩
    · rfl
    · have hfst := find_logged_fst (add_stops c1.inode n name kaddr) (records PAGE_CACHE_SIZE)
      dsimp only
      generalize find_logged (add_stops c1.inode n name kaddr) (records PAGE_CACHE_SIZE) = r at hfst
      obtain ⟨o, l⟩ := r
      rw [← hfst]
      cases o with
      | none => exact ih (n + 1) c1
      | some p => rfl

/-- The `while` loop of `gas_iterate`, with the offsets looked at. -/
def iterate_page_logged {σ : Type} (actor : Actor σ) (i_size : Nat) (kaddr : Mem) :
    Nat → σ → Nat → Nat → (σ × Nat × Bool) × List Nat
  | 0, s, pos, _ => ((s, pos, true), [])
  | fuel + 1, s, pos, off =>
    if off < PAGE_CACHE_SIZE ∧ pos < i_size then
      match gas_dir_emit actor s kaddr off with
      | (s, false) => ((s, pos, false), [off])
      | (s, true) =>
        let r := iterate_page_logged actor i_size kaddr fuel s (pos + sizeof_gas_dir_entry)
          (off + sizeof_gas_dir_entry)
        (r.1, off :: r.2)
    else ((s, pos, true), [])

theorem iterate_page_logged_fst {σ : Type} (actor : Actor σ) (i_size : Nat) (kaddr : Mem) :
    ∀ (fuel : Nat) (s : σ) (pos off : Nat),
      (iterate_page_logged actor i_size kaddr fuel s pos off).1 =
        iterate_page actor i_size kaddr fuel s pos off := by
  intro fuel
  induction fuel with
  | zero => exact fun s pos off => rfl
  | succ fuel ih =>
    intro s pos off
    rw [iterate_page_logged, iterate_page]
    split
    · rcases gas_dir_emit actor s kaddr off with ⟨s1, _ | _⟩
      · rfl
      · exact ih s1 _ _
    · rfl

/-- The `for` loop of `gas_iterate`, with the records looked at. -/
def iterate_loop_logged {σ : Type} (actor : Actor σ) :
    Nat → Nat → Nat → Ctx → σ → Nat → Iterate σ × List (Nat × Nat)
  | 0, _, _, c, s, pos => (⟨c, s, pos, none⟩, [])
  | count + 1, pidx, off, c, s, pos =>
    match gas_dir_get_page c pidx with
    | (none, c) => (⟨c, s, pos, some Errno.EIO⟩, [])
    | (some kaddr, c) =>
      match iterate_page_logged actor c.inode.i_size kaddr 16 s pos off with
      | ((s, pos, false), l) => (⟨c, s, pos, none⟩, l.map (pidx, ·))
      | ((s, pos, true), l) =>
        let r := iterate_loop_logged actor count (pidx + 1) 0 c s pos
        (r.1, l.map (pidx, ·) ++ r.2)

theorem iterate_loop_logged_fst {σ : Type} (actor : Actor σ) :
    ∀ (count pidx off : Nat) (c : Ctx) (s : σ) (pos : Nat),
      (iterate_loop_logged actor count pidx off c s pos).1 =
        iterate_loop actor count pidx off c s pos := by
  intro count
  induction count with
  | zero => exact fun pidx off c s pos => rfl
  | succ count ih =>
    intro pidx off c s pos
    rw [iterate_loop_logged, iterate_loop]
    rcases gas_dir_get_page c pidx with ⟨_ | kaddr, c1⟩
    · rfl
    · have hfst := iterate_page_logged_fst actor c1.inode.i_size kaddr 16 s pos off
      dsimp only
      generalize iterate_page_logged actor c1.inode.i_size kaddr 16 s pos off = r at hfst
      obtain ⟨⟨s1, pos1, _ | _⟩, l⟩ := r
      · rw [← hfst]
      · rw [← hfst]
        exact ih (pidx + 1) 0 c1 s1 pos1

/-- The records that a call of `gas_iterate` from `pos` on looks at.  It begins on the page of
`pos`, at the offset of `pos` in it, as `gas_iterate` does. -/
def iterate_log {σ : Type} (actor : Actor σ) (c : Ctx) (s : σ) (pos : Nat) : List (Nat × Nat) :=
  let pidx := gas_dir_entry_page pos
  (iterate_loop_logged actor (gas_dir_pages c.inode - pidx) pidx (gas_dir_entry_offset pos) c s pos).2

/-- A record lies within its page.  The page is 4096 bytes, a record 260. -/
def InPage (q : Nat × Nat) : Prop := q.2 + sizeof_gas_dir_entry ≤ PAGE_CACHE_SIZE

/-- All that the four scans of a directory look at lies within its page, whichever requests fail and
whoever lists it.  The listing begins at `pos`.  The three scans that take no position are asked of
all requests, the listing of all actors as well. -/
structure ScansInPage (inode : Inode) (pos : Nat) : Prop where
  find_entry : ∀ (c : Ctx) (name : List UInt8), c.inode = inode →
    ∀ q ∈ (find_record_logged (is_named name) (gas_dir_pages inode) 0 c).2, InPage q
  empty_dir : ∀ c : Ctx, c.inode = inode →
    ∀ q ∈ (find_record_logged (not_empty inode) (gas_dir_pages inode) 0 c).2, InPage q
  add_link : ∀ (c : Ctx) (name : List UInt8) (ino : Nat), c.inode = inode →
    ∀ q ∈ (add_link_logged name ino (gas_dir_pages inode + 1) 0 c).2, InPage q
  iterate : ∀ {σ : Type} (actor : Actor σ) (c : Ctx) (s : σ), c.inode = inode →
    ∀ q ∈ iterate_log actor c s pos, InPage q

/-! ## 2. Scans up to a limit

Three of the scans compare the end of the record with the limit. -/

theorem mem_records {last p : Nat} (h : p ∈ records last) : p + 260 ≤ last := by
  obtain ⟨k, hk, rfl⟩ := List.mem_map.mp h
  have hlt := List.mem_range.mp hk
  have hmul := Nat.div_mul_le_self last 260
  have hk' : (k + 1) * 260 ≤ last / 260 * 260 := Nat.mul_le_mul_right 260 hlt
  show 260 * k + 260 ≤ last
  omega

theorem gas_last_byte_le (inode : Inode) (n : Nat) : gas_last_byte inode n ≤ PAGE_CACHE_SIZE := by
  rw [gas_last_byte]
  split
  · exact Nat.le_of_lt (Nat.mod_lt _ (by decide))
  · exact Nat.le_refl _

theorem find_record_in_page (test : Mem → Nat → Bool) : ∀ (count n : Nat) (c : Ctx),
    ∀ q ∈ (find_record_logged test count n c).2, InPage q := by
  intro count
  induction count with
  | zero => exact fun n c q hq => absurd hq List.not_mem_nil
  | succ count ih =>
    intro n c q hq
    rw [find_record_logged] at hq
    generalize gas_dir_get_page c n = g at hq
    obtain ⟨_ | kaddr, c1⟩ := g
    · exact ih (n + 1) c1 q hq
    · have hin : ∀ p ∈ (find_logged (test kaddr) (records (gas_last_byte c1.inode n))).2,
          InPage (n, p) := fun p hp =>
        Nat.le_trans (mem_records (mem_of_mem_find_logged hp)) (gas_last_byte_le c1.inode n)
      dsimp only at hq
      generalize find_logged (test kaddr) (records (gas_last_byte c1.inode n)) = r at hq hin
      obtain ⟨_ | p, l⟩ := r
      · rcases List.mem_append.mp hq with hq | hq
        · obtain ⟨p, hp, rfl⟩ := List.mem_map.mp hq
          exact hin p hp
        · exact ih (n + 1) c1 q hq
      · obtain ⟨p, hp, rfl⟩ := List.mem_map.mp hq
        exact hin p hp

theorem add_link_in_page (name : List UInt8) (ino : Nat) : ∀ (count n : Nat) (c : Ctx),
    ∀ q ∈ (add_link_logged name ino count n c).2, InPage q := by
  intro count
  induction count with
  | zero => exact fun n c q hq => absurd hq List.not_mem_nil
  | succ count ih =>
    intro n c q hq
    rw [add_link_logged] at hq
    generalize gas_dir_get_page c n = g at hq
    obtain ⟨_ | kaddr, c1⟩ := g
    · exact absurd hq List.not_mem_nil
    · have hin : ∀ p ∈ (find_logged (add_stops c1.inode n name kaddr) (records PAGE_CACHE_SIZE)).2,
          InPage (n, p) := fun p hp => mem_records (mem_of_mem_find_logged hp)
      dsimp only at hq
      generalize find_logged (add_stops c1.inode n name kaddr) (records PAGE_CACHE_SIZE) = r at hq hin
      obtain ⟨_ | p, l⟩ := r
      · rcases List.mem_append.mp hq with hq | hq
        · obtain ⟨p, hp, rfl⟩ := List.mem_map.mp hq
          exact hin p hp
        · exact ih (n + 1) c1 q hq
      · obtain ⟨p, hp, rfl⟩ := List.mem_map.mp hq
        exact hin p hp

/-! ## 3. `gas_iterate`

The fourth compares its beginning. -/

section
variable {σ : Type} (actor : Actor σ) (i_size : Nat) (kaddr : Mem)

/-- The inner loop looks at offsets that begin in the page and in front of `i_size`, and at all of
them if no entry is refused.  The first half bounds the log from above, the second says that it is
no smaller when the loop ends by itself. -/
theorem iterate_page_log : ∀ (fuel : Nat) (s : σ) (pos off : Nat), reach i_size pos off ≤ fuel →
    (∀ o ∈ (iterate_page_logged actor i_size kaddr fuel s pos off).2,
        ∃ k < reach i_size pos off, o = off + 260 * k) ∧
      ((iterate_page_logged actor i_size kaddr fuel s pos off).1.2.2 = true →
        (iterate_page_logged actor i_size kaddr fuel s pos off).1.2.1 =
            pos + 260 * reach i_size pos off ∧
          ∀ k < reach i_size pos off,
            off + 260 * k ∈ (iterate_page_logged actor i_size kaddr fuel s pos off).2) := by
  intro fuel
  induction fuel with
  | zero =>
    intro s pos off hfuel
    rw [Nat.le_zero.mp hfuel]
    exact ⟨fun o ho => absurd ho List.not_mem_nil, fun _ => ⟨rfl, fun k hk => absurd hk (by omega)⟩⟩
  | succ fuel ih =>
    intro s pos off hfuel
    rw [iterate_page_logged]
    by_cases hgo : off < PAGE_CACHE_SIZE ∧ pos < i_size
    · have hsucc : reach i_size pos off = reach i_size (pos + 260) (off + 260) + 1 := by
        obtain ⟨hoff, hpos⟩ := hgo
        have hoff' : off < 4096 := hoff
        unfold reach PAGE_CACHE_SIZE
        omega
      have hfirst : ∃ k < reach i_size pos off, off = off + 260 * k :=
        ⟨0, by omega, by omega⟩
      rw [if_pos hgo]
      rcases gas_dir_emit actor s kaddr off with ⟨s1, _ | _⟩
      · refine ⟨fun o ho => ?_, fun he => absurd he (by simp)⟩
        obtain rfl := List.mem_singleton.mp ho
        exact hfirst
      · obtain ⟨hin, hall⟩ := ih s1 (pos + 260) (off + 260) (by omega)
        refine ⟨fun o ho => ?_, fun he => ?_⟩
        · rcases List.mem_cons.mp ho with rfl | ho
          · exact hfirst
          · obtain ⟨k, hk, rfl⟩ := hin o ho
            exact ⟨k + 1, by omega, by omega⟩
        · obtain ⟨hend, hlog⟩ := hall he
          refine ⟨hend.trans (by omega), fun k hk => ?_⟩
          cases k with
          | zero => exact List.mem_cons_self
          | succ k =>
            have hmem := hlog k (by omega)
            rw [show off + 260 + 260 * k = off + 260 * (k + 1) by omega] at hmem
            exact List.mem_cons_of_mem off hmem
    · have hz : reach i_size pos off = 0 := by
        have hgo' : ¬(off < 4096 ∧ pos < i_size) := hgo
        unfold reach PAGE_CACHE_SIZE
        omega
      rw [if_neg hgo, hz]
      exact ⟨fun o ho => absurd ho List.not_mem_nil, fun _ => ⟨rfl, fun k hk => absurd hk (by omega)⟩⟩

end

/-- One page of a listing: either it ends there, or it goes on at the next page behind all records
that begin in this one. -/
theorem mem_iterate_loop {σ : Type} {actor : Actor σ} {count pidx off : Nat} {c : Ctx} {s : σ}
    {pos : Nat} {q : Nat × Nat}
    (h : q ∈ (iterate_loop_logged actor (count + 1) pidx off c s pos).2) :
    (∃ k < reach c.inode.i_size pos off, q = (pidx, off + 260 * k)) ∨
      ∃ c' s', c'.inode = c.inode ∧ q ∈ (iterate_loop_logged actor count (pidx + 1) 0 c' s'
        (pos + 260 * reach c.inode.i_size pos off)).2 := by
  rw [iterate_loop_logged, gas_dir_get_page] at h
  cases hread : c.v.env.pgread c.v.tick with
  | false =>
    rw [hread] at h
    exact absurd h List.not_mem_nil
  | true =>
    obtain ⟨hin, hall⟩ := iterate_page_log actor c.inode.i_size (c.page_address c.v.tick pidx) 16 s
      pos off (by unfold reach PAGE_CACHE_SIZE; omega)
    simp only [hread, if_true] at h
    generalize iterate_page_logged actor c.inode.i_size (c.page_address c.v.tick pidx) 16 s pos off
      = r at h hin hall
    have hpage : ∀ l, r.2 = l → q ∈ l.map (pidx, ·) →
        ∃ k < reach c.inode.i_size pos off, q = (pidx, off + 260 * k) := by
      rintro l rfl hq
      obtain ⟨o, ho, rfl⟩ := List.mem_map.mp hq
      obtain ⟨k, hk, rfl⟩ := hin o ho
      exact ⟨k, hk, rfl⟩
    obtain ⟨⟨s1, pos1, _ | _⟩, l⟩ := r
    · exact Or.inl (hpage l rfl h)
    · rcases List.mem_append.mp h with hq | hq
      · exact Or.inl (hpage l rfl hq)
      · have hend : pos1 = pos + 260 * reach c.inode.i_size pos off := (hall rfl).1
        rw [hend] at hq
        exact Or.inr ⟨(gas_dir_get_page c pidx).2, s1, rfl, hq⟩

/-- With no more than 15 records to go, a listing at the start of a page stays within the pages.
The 16th place of the page is then behind the end of the directory. -/
theorem iterate_loop_tail {σ : Type} (actor : Actor σ) : ∀ (count pidx : Nat) (c : Ctx) (s : σ)
    (pos : Nat), c.inode.i_size ≤ pos + 3900 →
      ∀ q ∈ (iterate_loop_logged actor count pidx 0 c s pos).2, InPage q := by
  intro count
  induction count with
  | zero => exact fun pidx c s pos _ q hq => absurd hq List.not_mem_nil
  | succ count ih =>
    intro pidx c s pos hfew q hq
    rcases mem_iterate_loop hq with ⟨k, hk, rfl⟩ | ⟨c', s', hi, hq⟩
    · have hlt := (lt_reach.mp hk).2
      show 0 + 260 * k + 260 ≤ 4096
      omega
    · refine ih _ c' s' _ ?_ q hq
      rw [hi]
      omega

/-- The condition under which a listing from `pos` on looks at whole records only.  Either a record
ends with the page of `pos`, and the directory ends in front of the 16th record of the next page; or
a record reaches past the page, and the directory ends in front of it.  The first case is that of an
offset which is 196 and a multiple of 260, as a program may seek to. -/
def StaysInPage (i_size pos : Nat) : Prop :=
  if (PAGE_CACHE_SIZE - gas_dir_entry_offset pos) % sizeof_gas_dir_entry = 0 then
    i_size ≤ PAGE_CACHE_SIZE * (gas_dir_entry_page pos + 1) + 3900
  else i_size ≤ pos + sizeof_gas_dir_entry *
    ((PAGE_CACHE_SIZE - 1 - gas_dir_entry_offset pos) / sizeof_gas_dir_entry)

/-- **A listing that stays in the page** under the condition on its first position: induction over
the pages, with the cursor running ahead. -/
theorem iterate_in_page {pos : Nat} {σ : Type} (actor : Actor σ) (c : Ctx) (s : σ)
    (h : StaysInPage c.inode.i_size pos) : ∀ q ∈ iterate_log actor c s pos, InPage q := by
  intro q hq
  unfold StaysInPage gas_dir_entry_offset gas_dir_entry_page PAGE_CACHE_SIZE sizeof_gas_dir_entry at h
  unfold iterate_log gas_dir_entry_offset gas_dir_entry_page PAGE_CACHE_SIZE at hq
  dsimp only at hq
  generalize gas_dir_pages c.inode - pos / 4096 = count at hq
  cases count with
  | zero => exact absurd hq List.not_mem_nil
  | succ count =>
    rcases mem_iterate_loop hq with ⟨k, hk, rfl⟩ | ⟨c', s', hi, hq⟩
    · obtain ⟨hoff, hpos⟩ := lt_reach.mp hk
      show pos % 4096 + 260 * k + 260 ≤ 4096
      split at h
      · omega
      · omega
    · refine iterate_loop_tail actor count _ c' s' _ ?_ q hq
      rw [hi]
      unfold reach PAGE_CACHE_SIZE
      split at h
      · omega
      · omega

/-! ## 4. Listings that leave the page

Where the condition fails, some listing looks behind the page. -/

/-- An actor that takes every entry. -/
def take_all : Actor Unit := fun s _ _ => (s, true)

theorem iterate_page_take_all (i_size : Nat) (kaddr : Mem) : ∀ (fuel : Nat) (s : Unit) (pos off : Nat),
    (iterate_page_logged take_all i_size kaddr fuel s pos off).1.2.2 = true := by
  intro fuel
  induction fuel with
  | zero => exact fun s pos off => rfl
  | succ fuel ih =>
    intro s pos off
    have hemit : gas_dir_emit take_all s kaddr off = (s, true) := by
      rw [gas_dir_emit]
      split
      · rfl
      · rfl
    rw [iterate_page_logged, hemit]
    split
    · exact ih s _ _
    · rfl

/-- It is shown all records of a page, and then those of the pages behind.  It is the actor that
makes the log as long as it can be. -/
theorem take_all_sees {count pidx off : Nat} {c : Ctx} (hio : ∀ n, c.v.env.pgread n = true) (pos : Nat) :
    (∀ k < reach c.inode.i_size pos off,
        (pidx, off + 260 * k) ∈ (iterate_loop_logged take_all (count + 1) pidx off c () pos).2) ∧
      ∀ q ∈ (iterate_loop_logged take_all count (pidx + 1) 0 (gas_dir_get_page c pidx).2 ()
          (pos + 260 * reach c.inode.i_size pos off)).2,
        q ∈ (iterate_loop_logged take_all (count + 1) pidx off c () pos).2 := by
  have hdone := iterate_page_take_all c.inode.i_size (c.page_address c.v.tick pidx) 16 () pos off
  obtain ⟨hend, hall⟩ := (iterate_page_log take_all c.inode.i_size (c.page_address c.v.tick pidx) 16
    () pos off (by unfold reach PAGE_CACHE_SIZE; omega)).2 hdone
  rw [iterate_loop_logged, gas_dir_get_page]
  simp only [hio, if_true]
  generalize iterate_page_logged take_all c.inode.i_size (c.page_address c.v.tick pidx) 16 () pos off
    = r at hdone hend hall
  obtain ⟨⟨s1, pos1, _ | _⟩, l⟩ := r
  · exact absurd hdone Bool.false_ne_true
  · dsimp only at hend hall ⊢
    rw [hend]
    exact ⟨fun k hk => List.mem_append_left _ (List.mem_map_of_mem (hall k hk)),
      fun q hq => List.mem_append_right _ hq⟩

/-- **Beyond the condition a listing leaves the page**, if its page can be read and no entry is
refused.  It looks at the record that reaches past the page of `pos`, or at the 16th of the next
page. -/
theorem iterate_leaves_page {pos : Nat} {c : Ctx} (hio : ∀ n, c.v.env.pgread n = true)
    (h : ¬StaysInPage c.inode.i_size pos) : ∃ q ∈ iterate_log take_all c () pos, ¬InPage q := by
  have hout : ∀ n o, 3836 < o → ¬InPage (n, o) := fun n o ho hin => by
    have hin' : o + 260 ≤ 4096 := hin
    omega
  unfold StaysInPage gas_dir_entry_offset gas_dir_entry_page PAGE_CACHE_SIZE sizeof_gas_dir_entry at h
  unfold iterate_log gas_dir_entry_offset gas_dir_entry_page PAGE_CACHE_SIZE
  have hpages : gas_dir_pages c.inode = (c.inode.i_size + 4095) / 4096 := rfl
  dsimp only
  split at h
  · next hmult =>
    -- the first page is left at its end, and the 16th record of the next one is looked at
    obtain ⟨count, hcount⟩ : ∃ count, gas_dir_pages c.inode - pos / 4096 = count + 2 :=
      ⟨gas_dir_pages c.inode - pos / 4096 - 2, by omega⟩
    rw [hcount]
    obtain ⟨-, hnext⟩ := @take_all_sees (count + 1) (pos / 4096) (pos % 4096) c hio pos
    obtain ⟨hseen, -⟩ := @take_all_sees count (pos / 4096 + 1) 0 (gas_dir_get_page c (pos / 4096)).2
      hio (pos + 260 * reach c.inode.i_size pos (pos % 4096))
    have hreach : pos + 260 * reach c.inode.i_size pos (pos % 4096) = 4096 * (pos / 4096 + 1) := by
      unfold reach PAGE_CACHE_SIZE
      omega
    have hlast : 15 < reach c.inode.i_size
        (pos + 260 * reach c.inode.i_size pos (pos % 4096)) 0 := by
      rw [hreach]
      exact lt_reach.mpr ⟨by omega, by omega⟩
    exact ⟨_, hnext _ (hseen 15 hlast), hout _ _ (by omega)⟩
  · next hcross =>
    obtain ⟨count, hcount⟩ : ∃ count, gas_dir_pages c.inode - pos / 4096 = count + 1 :=
      ⟨gas_dir_pages c.inode - pos / 4096 - 1, by omega⟩
    rw [hcount]
    obtain ⟨hseen, -⟩ := @take_all_sees count (pos / 4096) (pos % 4096) c hio pos
    exact ⟨_, hseen ((4095 - pos % 4096) / 260) (lt_reach.mpr ⟨by omega, by omega⟩),
      hout _ _ (by omega)⟩

/-- **Directory scans stay inside the page exactly under the condition**: whatever the directory
holds, `gas_find_entry`, `gas_empty_dir` and `gas_add_link` always do, and `gas_iterate` from `pos`
on does, for every caller and every failure of a read, if and only if `StaysInPage`. -/
theorem scans_in_page_iff (inode : Inode) (pos : Nat) :
    ScansInPage inode pos ↔ StaysInPage inode.i_size pos := by
  constructor
  · intro h
    by_contra hleave
    obtain ⟨q, hq, hout⟩ := iterate_leaves_page (c := ⟨plain_vol, inode, 0⟩) (fun _ => rfl) hleave
    exact hout (h.iterate take_all _ () rfl q hq)
  · intro h
    refine ⟨fun c name _ => find_record_in_page _ _ _ c, fun c _ => find_record_in_page _ _ _ c,
      fun c name ino _ => add_link_in_page name ino _ _ c, ?_⟩
    rintro σ actor c s rfl
    exact iterate_in_page actor c s h

/-- A listing of 16 entries from the start looks at a record of which 64 bytes lie behind the
page. -/
theorem sixteen_overrun : ¬∀ (c : Ctx) (pos : Nat), Reached Made Absent c → ScansInPage c.inode pos := by
  intro hclaim
  obtain ⟨c, hb⟩ := built_nth (fun _ h => h) (fun _ _ h => h) 14 (by omega)
  obtain ⟨P, m, hdim⟩ := hb.ok.dims
  have hns : c.inode.nslots = 16 := by rw [← length_slots, hb.slots, length_nth_table]
  have hin := (scans_in_page_iff c.inode 0).mp (hclaim c 0 hb.reached)
  have h1 := hdim.pos
  have h2 := hdim.le
  have h3 := hdim.nslots
  have h4 := hdim.size
  unfold StaysInPage gas_dir_entry_offset gas_dir_entry_page PAGE_CACHE_SIZE sizeof_gas_dir_entry at hin
  split at hin
  · omega
  · omega

end GasFs
