/-
# Byte memory: C strings and little-endian words

A memory is a function from addresses to bytes.  This file gives the three `string.h`
functions that read and write the names of a directory (`strncmp`, `memcmp`, `strncpy`) as C
defines them on such a memory, and the little-endian reading and writing of 32-bit words.

The whole of the string half is one notion: `cstr mem off n`, the bytes from `off` up to the
first NUL, at most `n` of them; its length is what `strlen` counts.  Each function is
characterised by it once (`strncmp_eq_zero_iff`, `memcmp_eq_zero_iff`, `cstr_of_bytes`), so that no
later proof unfolds a byte loop.

Two points of the C functions matter to a directory and are kept here.  `strncmp` stops at a common
NUL while `memcmp` goes on, so they agree only on strings of known length; and `strncpy` fills its
window with NULs but writes none behind it, so a name as long as the window is not closed by it.

A little-endian word is four bytes, least significant first.  `le32` reads it as a number below
`2 ^ 32` and `putLe32` writes a number modulo `2 ^ 32`, as an assignment to a `__le32` does.
`ofWords` goes from a row of words to the bytes that hold it, so a memory can be given by either
view.
-/
import Mathlib.Data.List.Basic
import Mathlib.Tactic.Ring

namespace Bytes

/-- A byte-addressed memory. -/
abbrev Mem := Nat → UInt8

/-! ## 1. C strings

An unsigned byte comparison is meant throughout: the difference returned by `strncmp` and `memcmp`
is that of two `unsigned char`. -/

/-- The bytes of the C string at `off`: up to the first NUL, and at most `n` of them. -/
def cstr (mem : Mem) (off : Nat) : Nat → List UInt8
  | 0 => []
  | n + 1 => if mem off = 0 then [] else mem off :: cstr mem (off + 1) n

/-- `strncmp`: the difference of the first two bytes that differ, `0` at a common NUL or
after `n` equal bytes. -/
def strncmp (a : Mem) (i : Nat) (b : Mem) (j : Nat) : Nat → Int
  | 0 => 0
  | n + 1 =>
    if a i ≠ b j then ((a i).toNat : Int) - (b j).toNat
    else if a i = 0 then 0
    else strncmp a (i + 1) b (j + 1) n

/-- `memcmp`: the difference of the first two bytes that differ among the first `n`. -/
def memcmp (a : Mem) (i : Nat) (b : Mem) (j : Nat) : Nat → Int
  | 0 => 0
  | n + 1 =>
    if a i ≠ b j then ((a i).toNat : Int) - (b j).toNat else memcmp a (i + 1) b (j + 1) n

/-- `strncpy(dst + off, src, n)`: the string, then NULs up to `n` bytes. -/
def strncpy (dst : Mem) (off : Nat) (src : Mem) (n : Nat) : Mem := fun a =>
  if off ≤ a ∧ a < off + n then (cstr src 0 n).getD (a - off) 0 else dst a

/-- A NUL-terminated string held in a list of its bytes. -/
def ofList (s : List UInt8) : Mem := fun i => s.getD i 0

theorem cstr_length_le (mem : Mem) : ∀ (n off : Nat), (cstr mem off n).length ≤ n
  | 0, _ => by simp [cstr]
  | n + 1, off => by
    unfold cstr
    split
    · simp
    · simpa using cstr_length_le mem n (off + 1)

theorem zero_notMem_cstr (mem : Mem) : ∀ (n off : Nat), (0 : UInt8) ∉ cstr mem off n
  | 0, _ => by simp [cstr]
  | n + 1, off => by
    unfold cstr
    split
    · simp
    · rename_i h
      simp only [List.mem_cons, not_or]
      exact ⟨fun e => h e.symm, zero_notMem_cstr mem n (off + 1)⟩

/-- Two memories that agree on the window hold the same string there. -/
theorem cstr_congr {m m' : Mem} : ∀ {n off off' : Nat},
    (∀ k < n, m (off + k) = m' (off' + k)) → cstr m off n = cstr m' off' n
  | 0, _, _, _ => rfl
  | n + 1, off, off', h => by
    have h0 : m off = m' off' := by simpa using h 0 (by omega)
    have ht : cstr m (off + 1) n = cstr m' (off' + 1) n :=
      cstr_congr fun k hk => by
        have := h (k + 1) (by omega)
        rwa [← Nat.add_assoc, ← Nat.add_assoc, Nat.add_right_comm off, Nat.add_right_comm off']
          at this
    unfold cstr
    rw [h0, ht]

/-- **A window that holds a whole string determines it**: once the string ends inside the first `n`
bytes, looking further changes nothing.  So a bound on the search for the NUL may be larger than the
field that holds the string without any effect. -/
theorem cstr_of_length_lt {mem : Mem} : ∀ {n off : Nat}, (cstr mem off n).length < n →
    ∀ {m : Nat}, n ≤ m → cstr mem off m = cstr mem off n
  | 0, _, h, _, _ => absurd h (by omega)
  | n + 1, off, h, m, hm => by
    obtain ⟨m, rfl⟩ : ∃ k, m = k + 1 := ⟨m - 1, by omega⟩
    unfold cstr at h ⊢
    split
    · rfl
    · rename_i hz
      rw [if_neg hz, List.length_cons] at h
      rw [cstr_of_length_lt (n := n) (by omega) (m := m) (by omega)]

/-- A shorter look at a string sees a prefix of it. -/
theorem cstr_take (mem : Mem) : ∀ (n off m : Nat), n ≤ m →
    cstr mem off n = (cstr mem off m).take n
  | 0, _, _, _ => by simp [cstr]
  | n + 1, off, m, h => by
    obtain ⟨m, rfl⟩ : ∃ k, m = k + 1 := ⟨m - 1, by omega⟩
    unfold cstr
    split
    · simp
    · rw [List.take_succ_cons, cstr_take mem n (off + 1) m (by omega)]

theorem cstr_ofList_aux : ∀ (n : Nat) (s : List UInt8) (k : Nat), (0 : UInt8) ∉ s →
    cstr (ofList s) k n = (s.drop k).take n
  | 0, _, _, _ => by simp [cstr]
  | n + 1, s, k, h => by
    have hrec := cstr_ofList_aux n s (k + 1) h
    unfold cstr
    by_cases hk : k < s.length
    · have hget : ofList s k = s[k] := by simp [ofList, hk]
      have hne : s[k] ≠ 0 := fun e => h (e ▸ List.getElem_mem hk)
      rw [hget, if_neg hne, hrec, List.drop_eq_getElem_cons hk, List.take_succ_cons]
    · have hget : ofList s k = 0 := by simp [ofList, Nat.le_of_not_lt hk]
      rw [if_pos hget, List.drop_eq_nil_of_le (Nat.le_of_not_lt hk)]
      simp

/-- A string without NUL bytes is read back whole when the window is large enough, and cut when it
is not. -/
theorem cstr_ofList {s : List UInt8} {n : Nat} (h : (0 : UInt8) ∉ s) :
    cstr (ofList s) 0 n = s.take n := by
  simpa using cstr_ofList_aux n s 0 h

/-- **`strncmp` compares strings**: it is `0` exactly when the first `n` bytes of the two strings
are equal.  The induction is on `n`, and a common NUL ends both strings at once. -/
theorem strncmp_eq_zero_iff (a b : Mem) : ∀ (n i j : Nat),
    strncmp a i b j n = 0 ↔ cstr a i n = cstr b j n
  | 0, _, _ => by simp [strncmp, cstr]
  | n + 1, i, j => by
    have ih := strncmp_eq_zero_iff a b n (i + 1) (j + 1)
    unfold strncmp cstr
    by_cases hab : a i = b j
    · by_cases hz : b j = 0 <;> simp [hab, hz, ih]
    · have hne : ((a i).toNat : Int) - (b j).toNat ≠ 0 := by
        have : (a i).toNat ≠ (b j).toNat := fun e => hab (UInt8.toNat_inj.mp e)
        omega
      simp only [ne_eq, hab, not_false_eq_true, if_true]
      refine ⟨fun h => absurd h hne, fun h => absurd h ?_⟩
      by_cases ha : a i = 0
      · have hb : b j ≠ 0 := fun e => hab (ha.trans e.symm)
        simp [ha, hb]
      · by_cases hb : b j = 0
        · simp [ha, hb]
        · simp [ha, hb, hab]

/-- `memcmp` of two strings of one length is `0` if they are equal.  This is the comparison a lookup
makes, after it has found the lengths equal. -/
theorem memcmp_eq_zero_iff (a b : Mem) : ∀ (n i j : Nat),
    memcmp a i b j n = 0 ↔ ∀ k < n, a (i + k) = b (j + k)
  | 0, _, _ => by simp [memcmp]
  | n + 1, i, j => by
    have ih := memcmp_eq_zero_iff a b n (i + 1) (j + 1)
    unfold memcmp
    by_cases hab : a i = b j
    · simp only [hab, ne_eq, not_true_eq_false, if_false, ih]
      constructor
      · intro h k hk
        rcases k with _ | k
        · simpa using hab
        · have := h k (by omega)
          rwa [Nat.add_right_comm i, Nat.add_right_comm j, Nat.add_assoc, Nat.add_assoc] at this
      · intro h k hk
        have := h (k + 1) (by omega)
        rwa [Nat.add_right_comm i, Nat.add_right_comm j, Nat.add_assoc, Nat.add_assoc]
    · have hne : ((a i).toNat : Int) - (b j).toNat ≠ 0 := by
        have : (a i).toNat ≠ (b j).toNat := fun e => hab (UInt8.toNat_inj.mp e)
        omega
      simp only [ne_eq, hab, not_false_eq_true, if_true, hne, false_iff, not_forall]
      exact ⟨0, by omega, by simpa using hab⟩

/-- The bytes of a string are those of the memory it lies in. -/
theorem getElem_cstr {mem : Mem} : ∀ {n off k : Nat} (h : k < (cstr mem off n).length),
    (cstr mem off n)[k] = mem (off + k)
  | 0, _, _, h => absurd h (by simp [cstr])
  | n + 1, off, k, h => by
    unfold cstr at h
    split at h
    · simp at h
    · rename_i hz
      rcases k with _ | k
      · simp [cstr, hz]
      · have hk : k < (cstr mem (off + 1) n).length := by simpa using h
        simp only [cstr, hz, if_false, List.getElem_cons_succ, getElem_cstr hk]
        congr 1
        omega

/-- What `strncpy` leaves outside its window. -/
theorem strncpy_outside {dst : Mem} {off : Nat} {src : Mem} {n a : Nat}
    (h : ¬(off ≤ a ∧ a < off + n)) : strncpy dst off src n a = dst a := by
  simp [strncpy, h]

theorem cstr_getD {s : List UInt8} (hz : (0 : UInt8) ∉ s) {mem : Mem} : ∀ {n off k : Nat},
    (∀ i < n, mem (off + i) = s.getD (k + i) 0) → cstr mem off n = (s.drop k).take n
  | n, off, k, h => by
    have : cstr mem off n = cstr (ofList s) k n := cstr_congr h
    rw [this, cstr_ofList_aux n s k hz]

/-- **A name written with `strncpy` and closed with a NUL is read back.** What the window held
before does not matter, since `strncpy` fills it to its end. -/
theorem cstr_of_bytes {mem : Mem} {off n : Nat} {s : List UInt8} (hz : (0 : UInt8) ∉ s)
    (h : ∀ i < n, mem (off + i) = s.getD i 0) (hn : s.length ≤ n) : cstr mem off n = s := by
  have h0 : ∀ i < n, mem (off + i) = s.getD (0 + i) 0 := by simpa using h
  simpa [List.take_of_length_le hn] using cstr_getD hz h0

/-! ## 2. Little-endian words

Reading back what was written is exact for numbers that fit (`le32_putLe32`), and a write changes no
byte outside its four (`putLe32_outside`). -/

/-- `le32_to_cpu` of the four bytes at `off`. -/
def le32 (mem : Mem) (off : Nat) : Nat :=
  (mem off).toNat + 256 * (mem (off + 1)).toNat + 65536 * (mem (off + 2)).toNat
    + 16777216 * (mem (off + 3)).toNat

/-- `cpu_to_le32` stored at `off`: four bytes, least significant first. -/
def putLe32 (mem : Mem) (off v : Nat) : Mem := fun a =>
  if a = off then UInt8.ofNat v
  else if a = off + 1 then UInt8.ofNat (v / 256)
  else if a = off + 2 then UInt8.ofNat (v / 65536)
  else if a = off + 3 then UInt8.ofNat (v / 16777216)
  else mem a

/-- A stored word is read back modulo `2 ^ 32`. -/
@[simp] theorem le32_putLe32 (mem : Mem) (off v : Nat) :
    le32 (putLe32 mem off v) off = v % 4294967296 := by
  have h1 : off + 1 ≠ off := by omega
  have h2 : off + 2 ≠ off := by omega
  have h3 : off + 3 ≠ off := by omega
  have h21 : off + 2 ≠ off + 1 := by omega
  have h31 : off + 3 ≠ off + 1 := by omega
  have h32 : off + 3 ≠ off + 2 := by omega
  simp only [le32, putLe32, h1, h2, h3, h21, h31, h32, if_true, if_false, UInt8.toNat_ofNat']
  omega

/-- A store of a word changes its four bytes only. -/
theorem putLe32_outside {mem : Mem} {off v a : Nat} (h : a < off ∨ off + 4 ≤ a) :
    putLe32 mem off v a = mem a := by
  have h0 : a ≠ off := by omega
  have h1 : a ≠ off + 1 := by omega
  have h2 : a ≠ off + 2 := by omega
  have h3 : a ≠ off + 3 := by omega
  simp [putLe32, h0, h1, h2, h3]

/-- A word depends on its four bytes only. -/
theorem le32_congr {m m' : Mem} {off off' : Nat} (h : ∀ k < 4, m (off + k) = m' (off' + k)) :
    le32 m off = le32 m' off' := by
  have h0 : m off = m' off' := by simpa using h 0 (by omega)
  simp only [le32, h0, h 1 (by omega), h 2 (by omega), h 3 (by omega)]

theorem le32_lt (mem : Mem) (off : Nat) : le32 mem off < 4294967296 := by
  have h0 := (mem off).toNat_lt
  have h1 := (mem (off + 1)).toNat_lt
  have h2 := (mem (off + 2)).toNat_lt
  have h3 := (mem (off + 3)).toNat_lt
  simp only [le32]
  omega

/-- Four zero bytes are the word `0`. -/
theorem le32_zero {mem : Mem} {off : Nat} (h : ∀ k < 4, mem (off + k) = 0) : le32 mem off = 0 := by
  have h0 : mem off = 0 := by simpa using h 0 (by omega)
  simp [le32, h0, h 1 (by omega), h 2 (by omega), h 3 (by omega)]

/-- The bytes of a row of words. -/
def ofWords (w : Nat → Nat) : Mem := fun a => UInt8.ofNat (w (a / 4) / 256 ^ (a % 4))

/-- A memory is the row of its words.  Together with `le32_putLe32` this makes the two views of a
block, by bytes and by words, interchangeable. -/
theorem ofWords_le32 (mem : Mem) : ofWords (fun k => le32 mem (4 * k)) = mem := by
  funext a
  obtain ⟨k, r, hr, rfl⟩ : ∃ k r, r < 4 ∧ a = 4 * k + r := ⟨a / 4, a % 4, by omega, by omega⟩
  have hdiv : (4 * k + r) / 4 = k := by omega
  have hmod : (4 * k + r) % 4 = r := by omega
  have h0 := (mem (4 * k)).toNat_lt
  have h1 := (mem (4 * k + 1)).toNat_lt
  have h2 := (mem (4 * k + 2)).toNat_lt
  have h3 := (mem (4 * k + 3)).toNat_lt
  apply UInt8.toNat.inj
  rw [ofWords, hdiv, hmod, UInt8.toNat_ofNat', le32]
  obtain rfl | rfl | rfl | rfl : r = 0 ∨ r = 1 ∨ r = 2 ∨ r = 3 := by omega
  · simp only [pow_zero, Nat.div_one, Nat.add_zero]
    omega
  · simp only [pow_one]
    omega
  · norm_num
    omega
  · norm_num
    omega

end Bytes
