/-
# Directories: `kern/gas_dir.c`

A directory is a file of 260-byte records, 15 to a page, each a NUL-terminated name in 256 bytes and
an inode number, which is `0` in a free record.  The functions are translated one by one; they run
on the `Ctx` of the directory.

A `struct gas_dir_entry *` is the number of its page and the offset in it.  A page read is a byte
memory of which the first 4096 bytes are the page's; what lies behind them is whatever the kernel
has there (`Env.beyond`), since `gas_iterate` looks past the end of a page.  The loops over the
records of a page are `List.find?` over their offsets (`records`).

On a `dirsync` directory `gas_dir_commit_chunk` writes the page out at once and returns the error of
`write_one_page`, with the page and the size changed already.  The functions that change a directory
are those of a directory that is not `dirsync`: they leave the page to be written back later, and
committing does not fail.

`gas_find_entry` and `gas_empty_dir` walk the records in the same way and are `find_record`, each
with its own test.  `gas_add_link` walks them in another way, since it has to see free records and
the end of the directory.  `gas_iterate` has a cursor `ctx->pos` besides its place in the page, and
the two need not agree; both are kept here.
-/
import GasFs.Itree

namespace GasFs

open Bytes

/-! ## 1. Positions and pages

A directory ends at `i_size`, which is a whole number of records in its last page. -/

/-- The bytes of `.` and of `..`. -/
def dot : List UInt8 := [46]
def dotdot : List UInt8 := [46, 46]

def gas_dir_pages (inode : Inode) : Nat := (inode.i_size + PAGE_CACHE_SIZE - 1) / PAGE_CACHE_SIZE

def gas_dir_entry_page (pos : Nat) : Nat := pos / PAGE_CACHE_SIZE

def gas_dir_entry_offset (pos : Nat) : Nat := pos % PAGE_CACHE_SIZE

/-- `gas_last_byte`: where the directory ends in a page. -/
def gas_last_byte (inode : Inode) (page_nr : Nat) : Nat :=
  if page_nr = inode.i_size / PAGE_CACHE_SIZE then inode.i_size % PAGE_CACHE_SIZE
  else PAGE_CACHE_SIZE

/-- The memory seen through the address of page `n` at request `t`. -/
def Ctx.page_address (c : Ctx) (t n : Nat) : Mem := fun a =>
  if a < PAGE_CACHE_SIZE then c.inode.pages n a else c.v.env.beyond t a

/-- `gas_dir_get_page`. -/
def gas_dir_get_page (c : Ctx) (n : Nat) : Option Mem × Ctx :=
  (if c.v.env.pgread c.v.tick then some (c.page_address c.v.tick n) else none,
    { c with v := { c.v with tick := c.v.tick + 1 } })

/-- Writing to a page in memory. -/
def Inode.setPage (inode : Inode) (n : Nat) (f : Mem → Mem) : Inode :=
  { inode with pages := Function.update inode.pages n (f (inode.pages n)) }

/-- `gas_dir_prepare_chunk` on a page that was read. -/
def gas_dir_prepare_chunk (c : Ctx) (pos len : Nat) : Ctx × Option Errno :=
  __block_write_begin c pos len true

/-- `gas_dir_commit_chunk`.  On a `dirsync` directory `dirsync` is `write_one_page`, which comes back
with its error; on another it is `none`, and the page is unlocked. -/
def gas_dir_commit_chunk (dirsync : Option (Ctx → Ctx × Option Errno)) (c : Ctx) (pos len : Nat) :
    Ctx × Option Errno :=
  let c :=
    if c.inode.i_size < pos + len then { c with inode := { c.inode with i_size := pos + len } }
    else c
  match dirsync with
  | some write_one_page => write_one_page c
  | none => (c, none)

@[simp] theorem gas_dir_commit_chunk_err (c : Ctx) (pos len : Nat) :
    (gas_dir_commit_chunk none c pos len).2 = none := rfl

/-- Committing a chunk grows the directory up to its end, and does nothing else. -/
theorem gas_dir_commit_chunk_eq (c : Ctx) (pos len : Nat) : gas_dir_commit_chunk none c pos len =
    ({ c with inode := { c.inode with i_size := max c.inode.i_size (pos + len) } }, none) := by
  rw [gas_dir_commit_chunk]
  rcases Nat.lt_or_ge c.inode.i_size (pos + len) with hlt | hge
  · rw [if_pos hlt, Nat.max_eq_right hlt.le]
  · rw [if_neg (Nat.not_lt.mpr hge), Nat.max_eq_left hge]

/-- `dir->i_mtime = dir->i_ctime = CURRENT_TIME_SEC`. -/
def touch (c : Ctx) : Ctx :=
  { c with inode := { c.inode with i_mtime := c.v.now, i_ctime := c.v.now } }

/-- The offsets of the whole records in the first `last` bytes of a page. -/
def records (last : Nat) : List Nat :=
  (List.range (last / sizeof_gas_dir_entry)).map (sizeof_gas_dir_entry * ·)

/-- `le32_to_cpu(de->de_inode)`. -/
def de_inode (kaddr : Mem) (p : Nat) : Nat := le32 kaddr (p + GAS_MAX_NAME_LEN)

/-! ## 2. Finding a record

A page that cannot be read is skipped in the source, with `continue`. -/

/-- The loop of `gas_find_entry` and `gas_empty_dir` over the pages from `n` on: the first record
that passes the test.  A page that cannot be read is skipped. -/
def find_record (test : Mem → Nat → Bool) : Nat → Nat → Ctx → Option (Nat × Nat) × Ctx
  | 0, _, c => (none, c)
  | count + 1, n, c =>
    match gas_dir_get_page c n with
    | (none, c) => find_record test count (n + 1) c
    | (some kaddr, c) =>
      match (records (gas_last_byte c.inode n)).find? (test kaddr) with
      | some p => (some (n, p), c)
      | none => find_record test count (n + 1) c

/-- The test of `gas_find_entry`. -/
def is_named (name : List UInt8) (kaddr : Mem) (p : Nat) : Bool :=
  de_inode kaddr p != 0 && strncmp kaddr p (ofList name) 0 GAS_MAX_NAME_LEN == 0

/-- `gas_find_entry`. -/
def gas_find_entry (c : Ctx) (name : List UInt8) : Option (Nat × Nat) × Ctx :=
  find_record (is_named name) (gas_dir_pages c.inode) 0 c

/-- The test of `gas_empty_dir`: a record in use that is neither `.` with the directory's own
number nor `..`. -/
def not_empty (inode : Inode) (kaddr : Mem) (p : Nat) : Bool :=
  de_inode kaddr p != 0 &&
    (if kaddr p ≠ 46 then true
     else if kaddr (p + 1) = 0 then de_inode kaddr p != inode.i_ino
     else if kaddr (p + 1) ≠ 46 then true
     else kaddr (p + 2) != 0)

/-- `gas_empty_dir`: no record other than `.` and `..` is in use.  A page that cannot be read counts
as empty. -/
def gas_empty_dir (c : Ctx) : Bool × Ctx :=
  let r := find_record (not_empty c.inode) (gas_dir_pages c.inode) 0 c
  (r.1.isNone, r.2)

/-! ## 3. Changing a directory

Each change is prepared (the block of the page is looked up or allocated), made in the page, and
committed. -/

/-- The record `gas_add_link` writes at `p`. -/
def write_entry (kaddr : Mem) (p : Nat) (name : List UInt8) (ino : Nat) : Mem :=
  let kaddr := strncpy kaddr p (ofList name) (GAS_MAX_NAME_LEN - 1)
  let kaddr := Function.update kaddr (p + (GAS_MAX_NAME_LEN - 1)) 0
  putLe32 kaddr (p + GAS_MAX_NAME_LEN) ino

/-- `gas_add_link` from the label `got_it` on. -/
def got_it (c : Ctx) (n p : Nat) (name : List UInt8) (ino : Nat) : Ctx × Option Errno :=
  let pos := PAGE_CACHE_SIZE * n + p
  match gas_dir_prepare_chunk c pos sizeof_gas_dir_entry with
  | (c, some e) => (c, some e)
  | (c, none) =>
    let c := { c with inode := c.inode.setPage n (write_entry · p name ino) }
    let r := gas_dir_commit_chunk none c pos sizeof_gas_dir_entry
    (touch r.1, r.2)

/-- The record at which the inner loop of `gas_add_link` stops: the end of the directory, a free
record, or one with the same name. -/
def add_stops (inode : Inode) (n : Nat) (name : List UInt8) (kaddr : Mem) (p : Nat) : Bool :=
  p == gas_last_byte inode n || de_inode kaddr p == 0 ||
    strncmp kaddr p (ofList name) 0 (GAS_MAX_NAME_LEN - 1) == 0

/-- The loop of `gas_add_link` over the pages from `n` on. -/
def add_link_loop (name : List UInt8) (ino : Nat) : Nat → Nat → Ctx → Ctx × Option Errno
  | 0, _, c => (c, some .EINVAL)
  | count + 1, n, c =>
    match gas_dir_get_page c n with
    | (none, c) => (c, some Errno.EIO)
    | (some kaddr, c) =>
      match (records PAGE_CACHE_SIZE).find? (add_stops c.inode n name kaddr) with
      | none => add_link_loop name ino count (n + 1) c
      | some p =>
        if p = gas_last_byte c.inode n then
          -- the record behind the end holds whatever was there
          got_it { c with inode := c.inode.setPage n (putLe32 · (p + GAS_MAX_NAME_LEN) 0) } n p
            name ino
        else if de_inode kaddr p = 0 then got_it c n p name ino
        else (c, some .EEXIST)

/-- `gas_add_link`: enter `name` for the inode number `ino`.  It looks at one page more than the
directory has, the page that a new last record would begin. -/
def gas_add_link (c : Ctx) (name : List UInt8) (ino : Nat) : Ctx × Option Errno :=
  add_link_loop name ino (gas_dir_pages c.inode + 1) 0 c

/-- `strcpy`. -/
def strcpy (kaddr : Mem) (p : Nat) (s : List UInt8) : Mem :=
  strncpy kaddr p (ofList s) (s.length + 1)

/-- The page `gas_make_empty` writes. -/
def empty_page (ino dir : Nat) : Mem :=
  let kaddr : Mem := fun _ => 0
  let kaddr := putLe32 kaddr GAS_MAX_NAME_LEN ino
  let kaddr := strcpy kaddr 0 dot
  let kaddr := putLe32 kaddr (sizeof_gas_dir_entry + GAS_MAX_NAME_LEN) dir
  strcpy kaddr sizeof_gas_dir_entry dotdot

/-- `gas_make_empty`: the two records of an empty directory in `dir`.  The page comes from
`grab_cache_page`, which may fail for want of memory. -/
def gas_make_empty (c : Ctx) (dir : Nat) : Ctx × Option Errno :=
  -- grab_cache_page
  let ok := c.v.env.mem c.v.tick
  let c := { c with v := { c.v with tick := c.v.tick + 1 } }
  if ok = false then (c, some .ENOMEM)
  else
    match __block_write_begin c 0 (2 * sizeof_gas_dir_entry) false with
    | (c, some e) => (c, some e)
    | (c, none) =>
      let c := { c with inode := c.inode.setPage 0 fun _ => empty_page c.inode.i_ino dir }
      gas_dir_commit_chunk none c 0 (2 * sizeof_gas_dir_entry)

/-- `gas_delete_entry` of the record at `p` in page `n`: its inode number is zeroed, and its name
stays. -/
def gas_delete_entry (c : Ctx) (n p : Nat) : Ctx × Option Errno :=
  let pos := PAGE_CACHE_SIZE * n + p
  match gas_dir_prepare_chunk c pos sizeof_gas_dir_entry with
  | (c, some e) => (touch c, some e)
  | (c, none) =>
    let c := { c with inode := c.inode.setPage n (putLe32 · (p + GAS_MAX_NAME_LEN) 0) }
    let r := gas_dir_commit_chunk none c pos sizeof_gas_dir_entry
    (touch r.1, r.2)

/-! ## 4. Listing and lookup

A lookup by name is a listing with an actor that compares. -/

/-- A `dir_context` actor: it is handed a name and an inode number, and returns whether the
listing goes on. -/
abbrev Actor (σ : Type) := σ → List UInt8 → Nat → σ × Bool

/-- `gas_dir_emit`.  `strlen` looks at the 256 bytes of the name: every record written has a NUL
there, and no one asks for a longer name. -/
def gas_dir_emit {σ : Type} (actor : Actor σ) (s : σ) (kaddr : Mem) (p : Nat) : σ × Bool :=
  let ino := de_inode kaddr p
  if ino = 0 then (s, true) else actor s (cstr kaddr p GAS_MAX_NAME_LEN) ino

/-- The `while` loop of `gas_iterate` in one page.  The last component tells whether no entry was
refused.  The loop tests the offset in the page and `ctx->pos`, and moves both by 260. -/
def iterate_page {σ : Type} (actor : Actor σ) (i_size : Nat) (kaddr : Mem) :
    Nat → σ → Nat → Nat → σ × Nat × Bool
  | 0, s, pos, _ => (s, pos, true)
  | fuel + 1, s, pos, off =>
    if off < PAGE_CACHE_SIZE ∧ pos < i_size then
      match gas_dir_emit actor s kaddr off with
      | (s, false) => (s, pos, false)
      | (s, true) => iterate_page actor i_size kaddr fuel s (pos + sizeof_gas_dir_entry)
          (off + sizeof_gas_dir_entry)
    else (s, pos, true)

/-- What a listing leaves: the state of the actor, `ctx->pos`, and the error returned. -/
structure Iterate (σ : Type) where
  c : Ctx
  s : σ
  pos : Nat
  err : Option Errno

/-- The `for` loop of `gas_iterate`.  A page has no more than 16 offsets 260 bytes apart. -/
def iterate_loop {σ : Type} (actor : Actor σ) : Nat → Nat → Nat → Ctx → σ → Nat → Iterate σ
  | 0, _, _, c, s, pos => ⟨c, s, pos, none⟩
  | count + 1, pidx, off, c, s, pos =>
    match gas_dir_get_page c pidx with
    | (none, c) => ⟨c, s, pos, some Errno.EIO⟩
    | (some kaddr, c) =>
      match iterate_page actor c.inode.i_size kaddr 16 s pos off with
      | (s, pos, false) => ⟨c, s, pos, none⟩
      | (s, pos, true) => iterate_loop actor count (pidx + 1) 0 c s pos

/-- `gas_iterate`, which is all that `gas_readdir` calls. -/
def gas_iterate {σ : Type} (actor : Actor σ) (c : Ctx) (s : σ) (pos : Nat) : Iterate σ :=
  let pidx := gas_dir_entry_page pos
  iterate_loop actor (gas_dir_pages c.inode - pidx) pidx (gas_dir_entry_offset pos) c s pos

/-- `struct gas_filename_match`. -/
structure Match where
  ino : Nat
  name : List UInt8

/-- `gas_match`.  A return value of `0` lets the listing go on. -/
def gas_match : Actor Match := fun m name ino =>
  if name.length ≠ m.name.length then (m, true)
  else if memcmp (ofList m.name) 0 (ofList name) 0 name.length = 0 then ({ m with ino := ino }, false)
  else (m, true)

/-- `gas_inode_by_name`: the number that `gas_match` has found, `0` if the listing came to its
end. -/
def gas_inode_by_name (c : Ctx) (child : List UInt8) : Nat × Ctx :=
  let r := gas_iterate gas_match c ⟨0, child⟩ 0
  (r.s.ino, r.c)

end GasFs
