/-
# Inode numbers

`gas_new_inode` hands out a number whose bit is clear, `gas_free_inode` clears the bit again.  Between
them the inode map is a register of the numbers handed out: `InodeBook` says that the bits set are
the two numbers that are never free, the padding behind the last record, and the numbers
outstanding.  `InodeRun` is any sequence of the two calls on a volume that `mkfs.gas` has just laid
out, `InodeRun.book` that the register is right along it, and `inode_numbers` what follows for the
numbers and their records.

A call without memory for the inode fails before it looks at the map: `full_without_memory`.

Which numbers there are is decided at the other end, by `mkfs.gas`: the numbers from `s_ninodes` on
have set bits, which the kernel never looks at otherwise, and numbers 0 and 1 are taken.  So the
statement begins with the image of `mkfs.gas` (`Image.freshInodeMap`) and not with an assumption on
the map.

The last part is about numbers that were not handed out.  `gas_free_inode` has a guard against them,
and `gas_free_inode_only_iff` says for which numbers it is enough: for all but `s_ninodes`, which
has no record but passes the guard.  With that number the bit of a padding is cleared, and a word of
the first data block with it.
-/
import GasFs.Mkfs.Fresh
import Mathlib.Data.Finset.Card
import Mathlib.Order.Interval.Finset.Nat

namespace GasFs

/-! ## 1. A fresh inode map

The bits of an inode map as it comes from the device. -/

/-- A volume as `mkfs.gas` leaves it, as far as the inode map goes: the inode list is not empty, no
count is cut in the superblock, and the bits set are those of the numbers 0 and 1 and of the
padding. -/
structure FreshInodeMap (size : Nat) (v : Vol) : Prop where
  sbi : v.sbi = mkfs_sbi size
  bits : v.s_blocksize_bits = 12
  nonempty : 0 < (filesys_param size).ino_blk
  fits : (filesys_param size).Fits
  iam : ∀ m < (filesys_param size).iam_blk, ∀ k < 32768,
    v.iam m k = decide (m * 32768 + k ≤ 1 ∨ (filesys_param size).ino_cnt ≤ m * 32768 + k)

/-- **Every image of `mkfs.gas` with an inode list has such a map.** -/
theorem Image.freshInodeMap {who : Caller} {size n : Nat} {dev img : Dev}
    (h : Image who (filesys_param size) dev img n) (hok : offset_ok n)
    (hsize : 256 ≤ (filesys_param size).blk_cnt) (hb : 0 < (mkfs_sbi size).s_bam_blocks)
    (hi : 0 < (mkfs_sbi size).s_iam_blocks) (env : Env) :
    FreshInodeMap size (mounted_vol (mkfs_sbi size) hb hi 12 img env) := by
  have hf := fits_of_offset_ok (offset_ok_of_le hok h.zone)
  refine ⟨rfl, rfl, (ino_blk_pos hsize).1, hf, fun m hm k hk => ?_⟩
  have hbit := h.iam m hm k hk
  simp only [mounted_vol, (mkfs_sbi_of_fits hf).1]
  exact hbit

/-! ## 2. Calls

`gas_new_inode` may be called with any directory and mode, and `gas_free_inode` with any number that
is outstanding. -/

/-- The numbers outstanding after a call of `gas_new_inode`. -/
def handed_out (inode : Option Inode) (out : List Nat) : List Nat :=
  match inode with
  | some inode => inode.i_ino :: out
  | none => out

/-- Any sequence of calls on `v₀`: the volume, and the numbers handed out and not yet freed.  A call
that fails is a step as well, and hands out nothing. -/
inductive InodeRun (v₀ : Vol) : Vol → List Nat → Prop
  | start : InodeRun v₀ v₀ []
  | new {v : Vol} {out : List Nat} (dir : Inode) (mode : BitVec 16) (h : InodeRun v₀ v out) :
      InodeRun v₀ (gas_new_inode v dir mode).2.2 (handed_out (gas_new_inode v dir mode).2.1 out)
  | free {v : Vol} {out : List Nat} (inode : Inode) (hmem : inode.i_ino ∈ out)
      (h : InodeRun v₀ v out) :
      InodeRun v₀ (gas_free_inode v inode) (out.erase inode.i_ino)

/-- **The register**: the bits set are those of 0 and 1, of the padding, and of the numbers
outstanding, which are different numbers with a record.  It is an equation for the whole map, so it
says which bits are clear too. -/
structure InodeBook (size : Nat) (v : Vol) (out : List Nat) : Prop where
  sbi : v.sbi = mkfs_sbi size
  bits : v.s_blocksize_bits = 12
  nodup : out.Nodup
  range : ∀ n ∈ out, 2 ≤ n ∧ n < v.sbi.s_ninodes
  used : ∀ n < v.inoLimit, v.inodeInUse n = true ↔ n ≤ 1 ∨ v.sbi.s_ninodes ≤ n ∨ n ∈ out

section Book

variable {size : Nat} {v v₀ : Vol} {out : List Nat}

/-- What `Fits` says of the superblock. -/
theorem mkfs_geometry (hfits : (filesys_param size).Fits) (hsbi : v.sbi = mkfs_sbi size)
    (hbits : v.s_blocksize_bits = 12) :
    Geometry v ∧ v.inoLimit ≤ 4294967296 ∧ v.sbi.s_ninodes ≤ v.inoLimit ∧
      v.inoLimit = (filesys_param size).iam_blk * 32768 ∧
      v.sbi.s_ninodes = (filesys_param size).ino_cnt := by
  obtain ⟨hbam, hiam, hnb, hni, hlist, hdata⟩ := mkfs_sbi_of_fits hfits
  obtain ⟨hbs, hbpb, hipb⟩ := mkfs_sbi_per_block size
  obtain ⟨hst, -, hcov, -, hile, hilt, hquarter⟩ := filesys_param_counts size
  have hblk := hfits.blk_cnt
  have hL : (filesys_param size).INODE_LIST_START =
    1 + (filesys_param size).bam_blk + (filesys_param size).iam_blk := rfl
  rw [← hsbi] at hbam hiam hnb hni hlist hdata hbs hbpb hipb
  rw [Vol.inoLimit, hiam, hni]
  exact ⟨⟨hbs, hbits, hbpb, hipb, by omega, by omega, by omega⟩, by omega, hile, rfl, rfl⟩

/-- The register of a fresh map is empty. -/
theorem FreshInodeMap.book (h : FreshInodeMap size v) : InodeBook size v [] := by
  obtain ⟨-, -, -, hlim, hni⟩ := mkfs_geometry h.fits h.sbi h.bits
  refine ⟨h.sbi, h.bits, List.nodup_nil, fun n hn => absurd hn List.not_mem_nil, fun n hn => ?_⟩
  rw [hlim] at hn
  rw [Vol.inodeInUse, h.iam (n / 32768) (by omega) (n % 32768) (by omega), decide_eq_true_iff, hni]
  simp only [List.not_mem_nil, or_false]
  omega

/-- **Handing out**: a fresh number enters the register, or nothing changes.  The number is the
first clear bit from the hint on, and all bits below the padding are numbers with a record. -/
theorem InodeBook.new (h : InodeBook size v out) (hfits : (filesys_param size).Fits) (dir : Inode)
    (mode : BitVec 16) :
    InodeBook size (gas_new_inode v dir mode).2.2
        (handed_out (gas_new_inode v dir mode).2.1 out) ∧
      ∀ inode, (gas_new_inode v dir mode).2.1 = some inode →
        2 ≤ inode.i_ino ∧ inode.i_ino < v.sbi.s_ninodes ∧ inode.i_ino ∉ out := by
  obtain ⟨hg, hlim, -⟩ := mkfs_geometry hfits h.sbi h.bits
  rcases gas_new_inode_cases hg hlim dir mode with ⟨ino, hint, he, hlt, hfree, -⟩ | ⟨e, he, -⟩
  · rw [he]
    have hnot : ¬(ino ≤ 1 ∨ v.sbi.s_ninodes ≤ ino ∨ ino ∈ out) := by
      rw [← h.used ino hlt, hfree]
      exact Bool.false_ne_true
    simp only [not_or, Nat.not_le] at hnot
    obtain ⟨hlo, hhi, hout⟩ := hnot
    refine ⟨⟨h.sbi, h.bits, List.nodup_cons.mpr ⟨hout, h.nodup⟩, fun n hn => ?_, fun n hn => ?_⟩,
      fun inode hi => ?_⟩
    · rcases List.mem_cons.mp hn with rfl | hn
      · exact ⟨hlo, hhi⟩
      · exact h.range n hn
    · have hu := h.used n hn
      simp only [Vol.inodeInUse, write_bit_block, handed_out, List.mem_cons]
      split
      · next heq => simp [heq]
      · next hne =>
        simp only [hne, false_or]
        exact hu
    · obtain rfl := Option.some.inj hi
      exact ⟨hlo, hhi, hout⟩
  · rw [he]
    exact ⟨⟨h.sbi, h.bits, h.nodup, h.range, h.used⟩, fun inode hi => absurd hi (by simp)⟩

/-- **Giving back**: the number leaves the register.  The bit cleared is that of the number, and no
padding. -/
theorem InodeBook.free (h : InodeBook size v out) (hfits : (filesys_param size).Fits)
    {inode : Inode} (hmem : inode.i_ino ∈ out) :
    InodeBook size (gas_free_inode v inode) (out.erase inode.i_ino) := by
  obtain ⟨hg, -, hle, -⟩ := mkfs_geometry hfits h.sbi h.bits
  obtain ⟨hlo, hhi⟩ := h.range _ hmem
  obtain ⟨words, he, -⟩ := gas_free_inode_eq hg inode (by omega) (by omega) (by omega)
  rw [he]
  refine ⟨h.sbi, h.bits, h.nodup.erase _, fun n hn => h.range n (List.mem_of_mem_erase hn),
    fun n hn => ?_⟩
  have hu := h.used n hn
  simp only [Vol.inodeInUse, write_bit_block, h.nodup.mem_erase_iff]
  split
  · next heq =>
    subst heq
    simp only [ne_eq, not_true, false_and, or_false, Bool.false_eq_true, false_iff]
    omega
  · next hne =>
    simp only [ne_eq, hne, not_false_eq_true, true_and]
    exact hu

/-- **The register is right along every run.** The induction is on the run, with one lemma for each
of the two calls. -/
theorem InodeRun.book (hr : InodeRun v₀ v out) (h : FreshInodeMap size v₀) :
    InodeBook size v out := by
  induction hr with
  | start => exact h.book
  | new dir mode _ ih => exact (ih.new h.fits dir mode).1
  | free inode hmem _ ih => exact ih.free h.fits hmem

/-! ## 3. Numbers and records

What the register means for the users of a number. -/

/-- How a call ends: without memory, with a full map, with an inode.  Memory is asked for first. -/
theorem gas_new_inode_ends (v : Vol) (dir : Inode) (mode : BitVec 16) :
    ((gas_new_inode v dir mode).1 = none ↔ (gas_new_inode v dir mode).2.1.isSome = true) ∧
      ((gas_new_inode v dir mode).1 = some .ENOSPC ↔ v.env.mem v.tick = true ∧ v.IamFull) ∧
      ((gas_new_inode v dir mode).1 = some .ENOMEM ↔ v.env.mem v.tick = false) := by
  have hfull := map_search_eq_none_iff v.iam v.sbi.s_bits_per_block v.s_iam_last
  rw [← Vol.IamFull] at hfull
  cases hm : v.env.mem v.tick with
  | false => simp [gas_new_inode, hm]
  | true =>
    cases hs : map_search v.iam v.sbi.s_bits_per_block v.s_iam_last v.sbi.s_iam_blocks
        v.s_iam_last with
    | none => simp [gas_new_inode, hm, hs, hfull.mp hs]
    | some p =>
      have hroom : ¬v.IamFull := fun hf => by
        rw [hfull.mpr hf] at hs
        exact absurd hs (by simp)
      simp [gas_new_inode, hm, hs, hroom]

/-- The map is full when the bits of all records are set. -/
theorem InodeBook.full_iff (h : InodeBook size v out) (hfits : (filesys_param size).Fits) :
    v.IamFull ↔ ∀ n < v.sbi.s_ninodes, v.inodeInUse n = true := by
  obtain ⟨hg, -, hle, -⟩ := mkfs_geometry hfits h.sbi h.bits
  rw [Vol.inoLimit] at hle
  constructor
  · intro hf n hn
    exact hf (n / 32768) (by omega) (n % 32768) (by rw [hg.bits_per_block]; omega)
  · intro hn i hi bit hbit
    rw [hg.bits_per_block] at hbit
    obtain ⟨hdiv, hmod⟩ := split_block (i := i) hbit
    have huse : v.inodeInUse (i * 32768 + bit) = true := by
      rcases Nat.lt_or_ge (i * 32768 + bit) v.sbi.s_ninodes with hlt | hge
      · exact hn _ hlt
      · exact (h.used _ (by rw [Vol.inoLimit]; omega)).mpr (Or.inr (Or.inl hge))
    rwa [Vol.inodeInUse, hdiv, hmod] at huse

/-- **A record of its own**: every word of the record of `n` lies in a block of the inode list, in
front of the data zone and within the block, and in the record of no other of the `others`.  Two
records of one block differ in their offset, others in their block. -/
def OwnRecord (v : Vol) (others : List Nat) (n : Nat) : Prop :=
  ∀ b w, InRecord v n b w →
    v.sbi.s_inode_list_start ≤ b ∧ b < v.sbi.s_data_block_start ∧ w < v.sbi.s_blocksize / 4 ∧
      ∀ m ∈ others, m ≠ n → ¬InRecord v m b w

theorem ownRecord (hfits : (filesys_param size).Fits) (hsbi : v.sbi = mkfs_sbi size)
    (others : List Nat) {n : Nat} (hn : n < v.sbi.s_ninodes) : OwnRecord v others n := by
  intro b w hw
  obtain ⟨hbs, -, hipb⟩ := mkfs_sbi_per_block size
  obtain ⟨-, -, -, -, hlist, hdata⟩ := mkfs_sbi_of_fits hfits
  rw [← hsbi] at hbs hipb hlist hdata
  obtain ⟨hlo, hhi⟩ := hw.in_list hsbi hfits hn
  refine ⟨by omega, by omega, ?_, fun m _ hne hm => hne (hm.eq hipb hw)⟩
  have hend := (inode_list v.sbi hipb).start_add_width_le n
  rw [inode_list_start] at hend
  have hlast := hw.2.2
  simp only [inode_list, hipb] at hend
  omega

/-- **Inode numbers are unique and have their own record.**  After any calls on a fresh inode map,
the numbers outstanding are different, lie in `[2, s_ninodes)`, and each has a record of its own,
apart from the root's.  The next call returns a number that is outstanding under no other inode, with
such a record; it fails with `-ENOSPC` exactly when there is memory for the inode and all bits of the
records are set, and with `-ENOMEM` exactly when there is none. -/
theorem inode_numbers (h : FreshInodeMap size v₀) (hr : InodeRun v₀ v out) :
    out.Nodup ∧
    (∀ n ∈ out, 2 ≤ n ∧ n < v.sbi.s_ninodes ∧ OwnRecord v (GAS_ROOT_INO :: out) n) ∧
    ∀ dir mode,
      (∀ inode, (gas_new_inode v dir mode).2.1 = some inode →
        2 ≤ inode.i_ino ∧ inode.i_ino < v.sbi.s_ninodes ∧ inode.i_ino ∉ out ∧
          OwnRecord v (GAS_ROOT_INO :: out) inode.i_ino) ∧
      ((gas_new_inode v dir mode).1 = none ↔ (gas_new_inode v dir mode).2.1.isSome = true) ∧
      ((gas_new_inode v dir mode).1 = some .ENOSPC ↔
        v.env.mem v.tick = true ∧ ∀ n < v.sbi.s_ninodes, v.inodeInUse n = true) ∧
      ((gas_new_inode v dir mode).1 = some .ENOMEM ↔ v.env.mem v.tick = false) := by
  have hb := hr.book h
  refine ⟨hb.nodup, fun n hn => ?_, fun dir mode => ?_⟩
  · obtain ⟨hlo, hhi⟩ := hb.range n hn
    exact ⟨hlo, hhi, ownRecord h.fits hb.sbi _ hhi⟩
  · obtain ⟨hsome, hnospc, hnomem⟩ := gas_new_inode_ends v dir mode
    rw [hb.full_iff h.fits] at hnospc
    refine ⟨fun inode hi => ?_, hsome, hnospc, hnomem⟩
    obtain ⟨hlo, hhi, hout⟩ := (hb.new h.fits dir mode).2 inode hi
    exact ⟨hlo, hhi, hout, ownRecord h.fits hb.sbi _ hhi⟩

/-! ## 4. A full map

When `-ENOSPC` is reported, and when it is not although the map is full. -/

/-- **The map is full when every record but two is outstanding.** -/
theorem InodeBook.full_iff_length (h : InodeBook size v out)
    (hfits : (filesys_param size).Fits) :
    (∀ n < v.sbi.s_ninodes, v.inodeInUse n = true) ↔ out.length = v.sbi.s_ninodes - 2 := by
  obtain ⟨-, -, hle, -⟩ := mkfs_geometry hfits h.sbi h.bits
  have hsub : out.toFinset ⊆ Finset.Ico 2 v.sbi.s_ninodes := fun n hn =>
    Finset.mem_Ico.mpr (h.range n (List.mem_toFinset.mp hn))
  have hcard : out.toFinset.card = out.length := List.toFinset_card_of_nodup h.nodup
  rw [← hcard, ← Nat.card_Ico]
  constructor
  · intro hn
    refine congrArg Finset.card (hsub.antisymm fun n hmem => List.mem_toFinset.mpr ?_)
    obtain ⟨hlo, hhi⟩ := Finset.mem_Ico.mp hmem
    rcases (h.used n (by omega)).mp (hn n hhi) with h1 | h1 | h1
    · omega
    · omega
    · exact h1
  · intro he n hn
    refine (h.used n (by omega)).mpr ?_
    by_cases h1 : n ≤ 1
    · exact Or.inl h1
    · have hmem : n ∈ out.toFinset := by
        rw [Finset.eq_of_subset_of_card_le hsub he.ge]
        exact Finset.mem_Ico.mpr ⟨by omega, hn⟩
      exact Or.inr (Or.inr (List.mem_toFinset.mp hmem))

/-- With memory at hand, call after call hands out a number until the map is full.  The length of
the register grows by one with each call, up to the records there are. -/
theorem InodeRun.fill (h : FreshInodeMap size v₀) (dir : Inode) (mode : BitVec 16) {k : Nat}
    (hk : k ≤ v₀.sbi.s_ninodes - 2) (hmem : ∀ t < k, v₀.env.mem (v₀.tick + t) = true) :
    ∃ v out, InodeRun v₀ v out ∧ out.length = k ∧ v.tick = v₀.tick + k ∧ v.env = v₀.env := by
  induction k with
  | zero => exact ⟨v₀, [], .start, rfl, rfl, rfl⟩
  | succ k ih =>
    obtain ⟨v, out, hr, hlen, htick, henv⟩ := ih (by omega) fun t ht => hmem t (by omega)
    have hb := hr.book h
    obtain ⟨hg, hlim, -⟩ := mkfs_geometry h.fits hb.sbi hb.bits
    have hmem' : v.env.mem v.tick = true := by
      rw [htick, henv]
      exact hmem k (Nat.lt_succ_self k)
    rcases gas_new_inode_cases hg hlim dir mode with ⟨ino, hint, he, -⟩ | ⟨-, -, hm | hfull⟩
    · have hrun := hr.new dir mode
      rw [he] at hrun
      exact ⟨_, _, hrun, congrArg Nat.succ hlen, by simp only [htick, Nat.add_assoc], henv⟩
    · exact absurd hm (by simp [hmem'])
    · have hall := (hb.full_iff_length h.fits).mp ((hb.full_iff h.fits).mp hfull)
      rw [hlen, hb.sbi, ← h.sbi] at hall
      omega

end Book

/-- The 256-block device, fresh, in a kernel that has memory for 62 inodes. -/
def fresh_vol : Vol :=
  { blank_vol with
    iam := fun m k => decide (m * 32768 + k ≤ 1 ∨ 64 ≤ m * 32768 + k)
    env := { blank_vol.env with mem := fun t => decide (t < 62) } }

theorem fresh_vol_map : FreshInodeMap 1048576 fresh_vol where
  sbi := rfl
  bits := rfl
  nonempty := by decide
  fits := filesys_param_fits (by decide)
  iam _ _ _ _ := rfl

theorem fresh_vol_fill : ∃ v out, InodeRun fresh_vol v out ∧ out.length = 62 ∧ v.tick = 62 ∧
    v.env = fresh_vol.env := by
  obtain ⟨v, out, hr, hlen, htick, henv⟩ := InodeRun.fill fresh_vol_map (iget_locked_new 1) S_IFREG
    (k := 62) (by decide) fun t ht => by
      have h0 : fresh_vol.tick = 0 := rfl
      rw [h0, Nat.zero_add]
      exact decide_eq_true ht
  exact ⟨v, out, hr, hlen, htick, henv⟩

/-- The 62 numbers a 256-block device has. -/
theorem fresh_vol_numbers : ∃ v out, InodeRun fresh_vol v out ∧ out.length = 62 ∧ out.Nodup ∧
    ∀ n ∈ out, 2 ≤ n ∧ n < v.sbi.s_ninodes ∧ OwnRecord v (GAS_ROOT_INO :: out) n := by
  obtain ⟨v, out, hr, hlen, -⟩ := fresh_vol_fill
  obtain ⟨hnodup, hout, -⟩ := inode_numbers fresh_vol_map hr
  exact ⟨v, out, hr, hlen, hnodup, hout⟩

/-- **Without memory a full map is not seen**: all bits are set, and the call fails with
`-ENOMEM`. -/
theorem full_without_memory : ∃ v out, InodeRun fresh_vol v out ∧
    (∀ n < v.sbi.s_ninodes, v.inodeInUse n = true) ∧
    (gas_new_inode v (iget_locked_new 1) S_IFREG).1 = some .ENOMEM := by
  obtain ⟨v, out, hr, hlen, htick, henv⟩ := fresh_vol_fill
  have hb := hr.book fresh_vol_map
  refine ⟨v, out, hr, (hb.full_iff_length fresh_vol_map.fits).mpr ?_,
    (gas_new_inode_ends v _ _).2.2.mpr ?_⟩
  · rw [hlen, hb.sbi]
    rfl
  · rw [henv, htick]
    rfl

/-! ## 5. Any number whatever

`gas_free_inode` on any inode, with any number. -/

/-- **Only that inode** changes between `v` and `v'`: nothing at all, or its bit is cleared, which
is the bit of a record, and words change within its record, which lies in the inode list.  A buffer
that cannot be read is a request made and nothing else. -/
def FreesOnly (v : Vol) (n : Nat) (v' : Vol) : Prop :=
  (∃ tick, v' = { v with tick := tick }) ∨
    n < v.sbi.s_ninodes ∧ ∃ words tick,
      v' = { v with
        words := words, tick := tick, iam := write_bit v.iam (n / 32768) (n % 32768) false } ∧
      ∀ b w, words b w ≠ v.words b w →
        InRecord v n b w ∧ v.sbi.s_inode_list_start ≤ b ∧ b < v.sbi.s_data_block_start

theorem write_bit_eq_self {map : Nat → Nat → Bool} {i bit : Nat} {x : Bool} (h : map i bit = x) :
    write_bit map i bit x = map := by
  funext i' bit'
  by_cases he : i' = i ∧ bit' = bit
  · obtain ⟨rfl, rfl⟩ := he
    rw [write_bit_same, h]
  · exact write_bit_of_ne he

section AnyNumber

variable {size : Nat} {v : Vol}

/-- The number behind the last record gets past the guard when the map has padding: its bit is
cleared, and the record the code takes for its own begins the data zone. -/
theorem gas_free_inode_behind (hfits : (filesys_param size).Fits) (hsbi : v.sbi = mkfs_sbi size)
    (hbits : v.s_blocksize_bits = 12) {inode : Inode} (hino : inode.i_ino = v.sbi.s_ninodes)
    (hpad : ¬32768 ∣ v.sbi.s_ninodes) :
    gas_free_inode v inode =
      { v with
        words := if v.env.bread v.tick = true then write_word v.words v.sbi.s_data_block_start 0 0
          else v.words
        tick := v.tick + 1
        iam := write_bit v.iam (v.sbi.s_ninodes / 32768) (v.sbi.s_ninodes % 32768) false } := by
  obtain ⟨hg, -, hle, hlim, hcnt⟩ := mkfs_geometry hfits hsbi hbits
  obtain ⟨-, -, -, -, hlist, hdata⟩ := mkfs_sbi_of_fits hfits
  obtain ⟨hst, hblk, -⟩ := filesys_param_counts size
  rw [← hsbi] at hlist hdata
  have hblock : gas_inode_block v.sbi v.sbi.s_ninodes = v.sbi.s_data_block_start := by
    rw [gas_inode_block, hg.inodes_per_block]
    omega
  have hoff : gas_inode_offset v.sbi v.sbi.s_ninodes / 4 = 0 := by
    rw [gas_inode_offset, hg.inodes_per_block, hcnt, hblk, Nat.mul_mod_left]
    rfl
  rw [Vol.inoLimit] at hle
  have he := gas_clear_inode_words v v.sbi.s_ninodes
  rw [hblock, hoff] at he
  unfold gas_free_inode
  generalize inode.i_ino = n at hino
  subst hino
  simp only [hg.two_pow_k]
  rw [if_neg (by omega), if_neg (by omega), he]

/-- Every other number is handled as it should be: it is refused, or its record and its bit are
cleared, or only a request was made. -/
theorem gas_free_inode_only (hfits : (filesys_param size).Fits) (hsbi : v.sbi = mkfs_sbi size)
    (hbits : v.s_blocksize_bits = 12) {inode : Inode}
    (hino : inode.i_ino ≠ v.sbi.s_ninodes ∨ 32768 ∣ v.sbi.s_ninodes) :
    FreesOnly v inode.i_ino (gas_free_inode v inode) := by
  obtain ⟨hg, -, hle, hlim, hcnt⟩ := mkfs_geometry hfits hsbi hbits
  obtain ⟨-, -, -, -, hlist, hdata⟩ := mkfs_sbi_of_fits hfits
  obtain ⟨-, -, -, -, -, htight, -⟩ := filesys_param_counts size
  rw [← hsbi] at hlist hdata
  rw [← hlim, ← hcnt, Vol.inoLimit] at htight
  unfold gas_free_inode
  simp only [hg.two_pow_k]
  split_ifs with h1 h2
  · exact Or.inl ⟨v.tick, rfl⟩
  · exact Or.inl ⟨v.tick, rfl⟩
  · have hlt : inode.i_ino < v.sbi.s_ninodes := by omega
    obtain ⟨words, he, hframe⟩ :=
      (TableOp.gas_clear_inode inode.i_ino).run_frame linux_dev v
    replace he : gas_clear_inode v inode.i_ino = _ := he
    rw [he]
    refine Or.inr ⟨hlt, words, v.tick + 1, rfl, fun b w hne => ?_⟩
    have hrec : InRecord v inode.i_ino b w := by
      by_contra hnot
      exact hne (hframe b w hnot)
    obtain ⟨hlo, hhi⟩ := hrec.in_list hsbi hfits hlt
    exact ⟨hrec, by omega, by omega⟩

/-- **Which numbers `gas_free_inode` can be given.**  On a volume laid out by `mkfs.gas` it touches
that inode only, unless the number is `s_ninodes`, the map has padding, and there is something to
clear: the padding bit, or the first word of the data zone. -/
theorem gas_free_inode_only_iff (hfits : (filesys_param size).Fits) (hsbi : v.sbi = mkfs_sbi size)
    (hbits : v.s_blocksize_bits = 12) (inode : Inode) :
    FreesOnly v inode.i_ino (gas_free_inode v inode) ↔
      inode.i_ino ≠ v.sbi.s_ninodes ∨ 32768 ∣ v.sbi.s_ninodes ∨
        v.inodeInUse v.sbi.s_ninodes = false ∧
          (v.env.bread v.tick = false ∨ v.words v.sbi.s_data_block_start 0 = 0) := by
  by_cases hgood : inode.i_ino ≠ v.sbi.s_ninodes ∨ 32768 ∣ v.sbi.s_ninodes
  · refine iff_of_true (gas_free_inode_only hfits hsbi hbits hgood) ?_
    exact hgood.elim Or.inl fun h => Or.inr (Or.inl h)
  · rw [not_or, not_not] at hgood
    obtain ⟨hino, hpad⟩ := hgood
    have he := gas_free_inode_behind hfits hsbi hbits hino hpad
    simp only [hino, ne_eq, not_true, hpad, false_or]
    constructor
    · rintro (⟨tick, heq⟩ | ⟨hlt, -⟩)
      · rw [he] at heq
        have hiam := congrFun (congrFun (congrArg Vol.iam heq) (v.sbi.s_ninodes / 32768))
          (v.sbi.s_ninodes % 32768)
        have hwords := congrFun (congrFun (congrArg Vol.words heq) v.sbi.s_data_block_start) 0
        dsimp only at hiam hwords
        rw [write_bit_same] at hiam
        refine ⟨hiam.symm, ?_⟩
        cases hio : v.env.bread v.tick with
        | false => exact Or.inl rfl
        | true =>
          rw [if_pos hio, write_word, if_pos ⟨rfl, rfl⟩] at hwords
          exact Or.inr hwords.symm
      · exact absurd hlt (Nat.lt_irrefl _)
    · rintro ⟨hbit, hword⟩
      refine Or.inl ⟨v.tick + 1, ?_⟩
      have hwords : (if v.env.bread v.tick = true then
          write_word v.words v.sbi.s_data_block_start 0 0 else v.words) = v.words := by
        split_ifs with hio
        · have hz := hword.resolve_left (by simp [hio])
          funext b w
          by_cases hbw : b = v.sbi.s_data_block_start ∧ w = 0
          · obtain ⟨rfl, rfl⟩ := hbw
            rw [write_word, if_pos ⟨rfl, rfl⟩, hz]
          · exact if_neg hbw
        · rfl
      rw [he, hwords, write_bit_eq_self hbit]

end AnyNumber

/-- The last record of the 256-block device. -/
theorem free_63_only : FreesOnly fresh_vol 63 (gas_free_inode fresh_vol (iget_locked_new 63)) :=
  (gas_free_inode_only_iff fresh_vol_map.fits fresh_vol_map.sbi fresh_vol_map.bits
    (iget_locked_new 63)).mpr (Or.inl (by decide))

/-- **The root directory loses its first entry**: freeing number 64 of a fresh 256-block device clears
a padding bit and the name of the entry at the beginning of block 4. -/
theorem free_64_hits_root : ∃ img, mkfs_main root_caller 1048576 (fun _ _ => 0) = some img ∧
    ∃ v v' : Vol, v = mounted_vol (mkfs_sbi 1048576) (by decide) (by decide) 12 img blank_vol.env ∧
      v' = gas_free_inode v (iget_locked_new 64) ∧
      v.sbi.s_ninodes = 64 ∧ v.sbi.s_data_block_start = 4 ∧
      v.inodeInUse 64 = true ∧ v'.inodeInUse 64 = false ∧
      v.words 4 0 = 46 ∧ v'.words 4 0 = 0 ∧ ¬FreesOnly v 64 v' := by
  obtain ⟨img, hrun, himg⟩ := mkfs_megabyte
  have hb : 0 < (mkfs_sbi 1048576).s_bam_blocks := by decide
  have hi : 0 < (mkfs_sbi 1048576).s_iam_blocks := by decide
  obtain ⟨v, hv⟩ : ∃ v, v = mounted_vol (mkfs_sbi 1048576) hb hi 12 img blank_vol.env := ⟨_, rfl⟩
  have hsbi : v.sbi = mkfs_sbi 1048576 := by rw [hv]; rfl
  have hn : v.sbi.s_ninodes = 64 := by rw [hsbi]; rfl
  have hd : v.sbi.s_data_block_start = 4 := by rw [hsbi]; rfl
  have hio : v.env.bread v.tick = true := by rw [hv]; rfl
  have huse : v.inodeInUse 64 = true := by
    rw [hv]
    exact (himg.iam 0 (by decide) 64 (by decide)).trans (by decide)
  have hword : v.words 4 0 = 46 := by
    rw [hv]
    simp only [mounted_vol, himg.entries]
    decide
  have hino : (iget_locked_new 64).i_ino = v.sbi.s_ninodes := by rw [hn]; rfl
  have he := gas_free_inode_behind fresh_vol_map.fits hsbi (by rw [hv]; rfl) hino
    (by rw [hn]; decide)
  rw [hio, hn, hd, if_pos rfl] at he
  have huse' : (gas_free_inode v (iget_locked_new 64)).inodeInUse 64 = false := by
    rw [he]
    exact write_bit_same v.iam (64 / 32768) (64 % 32768) false
  refine ⟨img, hrun, v, _, hv, rfl, hn, hd, huse, huse', hword, ?_, ?_⟩
  · rw [he]
    rfl
  · rintro (⟨tick, heq⟩ | ⟨hlt, -⟩)
    · rw [heq] at huse'
      exact absurd (huse.symm.trans huse') (by decide)
    · rw [hn] at hlt
      exact absurd hlt (by decide)

end GasFs
