/-
# The block tree: `kern/gas_itree.c`

The functions that map a file's logical blocks to disk blocks, translated one by one.  They run
on a `Ctx`: the mounted volume, the inode at hand, and the local variable `nr` of
`gas_truncate_inode`, whose address the code takes.

A `block_t *` is a `Cell`: a slot of `blkaddr`, an entry of an indirect block, or `&nr`.  A
range of pointers `[p, q)` is the list of its cells.  A `struct buffer_head *` is the number of
its block, and its contents are the words of that block: every reader of a block shares one
buffer.  The array `chain` is the list of the entries filled so far, so `partial - chain` is its
length less one.

`gas_get_block` retries while another thread changes the tree under it.  The loop is kept, with
fuel; run alone it never retries (`gas_get_block_loop_create` in `Itree/Alloc.lean`).

Nothing in this module is a theorem.  The definitions are kept close to the source, loop by loop, so
that the two can be read side by side: a `while` loop is a recursive function named after it, a
pointer that a loop moves is an index, and an assignment through a pointer is `Ctx.store`.  Reads of
a buffer are requests of the environment and may fail at any point; what the source does then is a
branch here.

Results of type `int` are kept as such.  `alloc_branch` stores the block number of `gas_new_block`
in an `int` and hands it to `sb_getblk`, so the conversions `int32` and `sector_of_int` appear in
its loop and nowhere else.
-/
import GasFs.Bitmap

namespace GasFs

/-! ## 1. Pointers and paths

A path is what the source calls `offsets`: a slot of `blkaddr`, then one index for each indirect
block. -/

/-- Where a block pointer is stored. -/
inductive Cell where
  | idata (i : Nat)
  | blk (b i : Nat)
  | nr
  deriving DecidableEq, Repr

/-- A volume, an inode of it, and the local `nr`. -/
structure Ctx where
  v : Vol
  inode : Inode
  nr : Nat

/-- `*p`. -/
def Ctx.load (c : Ctx) : Cell → Nat
  | .idata i => c.inode.blkaddr i
  | .blk b i => c.v.words b i
  | .nr => c.nr

/-- `*p = x`. -/
def Ctx.store (c : Ctx) (p : Cell) (x : Nat) : Ctx :=
  match p with
  | .idata i => { c with inode := { c.inode with blkaddr := Function.update c.inode.blkaddr i x } }
  | .blk b i => { c with v := { c.v with words := write_word c.v.words b i x } }
  | .nr => { c with nr := x }

/-- `typedef struct { block_t *p; block_t key; struct buffer_head *bh; } Indirect`. -/
structure Indirect where
  p : Cell
  key : Nat
  bh : Option Nat
  deriving DecidableEq, Repr

instance : Inhabited Indirect := ⟨⟨.nr, 0, none⟩⟩

/-- `DIRCOUNT` and `DIRECT`. -/
abbrev DIRECT : Nat := 6
/-- `DEPTH`: triple indirect. -/
abbrev DEPTH : Nat := 4

/-- `block_to_path`: the offsets on the way to a logical block, none when it is refused. -/
def block_to_path (v : Vol) (block : Int) : List Nat :=
  if block < 0 then []
  else if (v.sbi.s_nblocks : Int) ≤ block then []
  else
    let b := block.toNat
    let N := INDIRCOUNT v
    if b < DIRECT then [b]
    else if b - DIRECT < N then [DIRECT, b - DIRECT]
    else if b - DIRECT - N < N * N then
      [DIRECT + 1, (b - DIRECT - N) / N, (b - DIRECT - N) % N]
    else
      let b := b - DIRECT - N - N * N
      [DIRECT + 2, b / N / N, b / N % N, b % N]

/-! ## 2. Looking up a chain

`get_branch` reads one pointer after the other and remembers where it found each of them, so that
the caller can see later whether they have changed. -/

/-- `add_chain`. -/
def add_chain (c : Ctx) (bh : Option Nat) (p : Cell) : Indirect := ⟨p, c.load p, bh⟩

/-- `verify_chain`: no pointer of the chain has changed since it was read. -/
def verify_chain (c : Ctx) (chain : List Indirect) : Bool := chain.all fun q => q.key == c.load q.p

/-- What `get_branch` leaves: the filled part of `chain`, whether it returned `NULL` (the whole
path exists), and `*err`. -/
structure Branch where
  c : Ctx
  chain : List Indirect
  isNull : Bool
  err : Option Errno

/-- The `while (--depth)` loop of `get_branch`; `p` is the last entry of `chain`. -/
def get_branch_loop (c : Ctx) (chain : List Indirect) (p : Indirect) : List Nat → Branch
  | [] => ⟨c, chain, true, none⟩
  | o :: offsets =>
    match sb_bread c.v with
    | (false, v) => ⟨{ c with v := v }, chain, false, some Errno.EIO⟩
    | (true, v) =>
      let c := { c with v := v }
      if verify_chain c chain = false then ⟨c, chain, false, some .EAGAIN⟩
      else
        let q := add_chain c (some p.key) (.blk p.key o)
        if q.key = 0 then ⟨c, chain ++ [q], false, none⟩
        else get_branch_loop c (chain ++ [q]) q offsets

/-- `get_branch`: the first pointer is in the inode, the others are in buffers. -/
def get_branch (c : Ctx) : List Nat → Branch
  | [] => ⟨c, [], true, none⟩
  | o :: offsets =>
    let p := add_chain c none (.idata o)
    if p.key = 0 then ⟨c, [p], false, none⟩ else get_branch_loop c [p] p offsets

/-! ## 3. Allocating a branch

A branch is prepared apart from the tree and hung into it by one store. -/

/-- `memset` of a new indirect block and the store of its one pointer. -/
def fill_block (words : Nat → Nat → Nat) (bh o key : Nat) : Nat → Nat → Nat :=
  fun b i => if b = bh then if i = o then key else 0 else words b i

/-- The loop of `alloc_branch`: allocate the next block, then zero its parent, found through
`sb_getblk`, and store the new number in it.  The last component tells whether all blocks were
found. -/
def alloc_branch_loop (v : Vol) (parent : Int) (branch : List Indirect) :
    List Nat → Vol × List Indirect × Bool
  | [] => (v, branch, true)
  | o :: offsets =>
    let (block, _, v) := gas_new_block v
    let nr := int32 block
    if nr = 0 then (v, branch, false)
    else
      let bh := sector_of_int parent
      let key := u32_of_int nr
      let v := { v with words := fill_block v.words bh o key }
      alloc_branch_loop v nr (branch ++ [⟨.blk bh o, key, some bh⟩]) offsets

/-- Free the blocks whose numbers stand in a branch. -/
def free_keys (v : Vol) (branch : List Indirect) : Vol :=
  branch.foldl (fun v q => gas_free_block v q.key) v

/-- `alloc_branch`: `num` blocks, one for each offset, the first of them for `start`.  If one cannot
be had, those taken so far are given back and the result is `-ENOSPC`. -/
def alloc_branch (c : Ctx) (offsets : List Nat) (start : Indirect) :
    Ctx × List Indirect × Option Errno :=
  let (block, _, v) := gas_new_block c.v
  let parent := int32 block
  let r := if parent = 0 then (v, [], false)
    else alloc_branch_loop v parent [{ start with key := u32_of_int parent }] offsets.tail
  if r.2.2 then ({ c with v := r.1 }, r.2.1, none)
  else ({ c with v := free_keys r.1 r.2.1 }, r.2.1, some .ENOSPC)

/-- `splice_branch`: `chain` is the part before `where`; `false` stands for `-EAGAIN`. -/
def splice_branch (c : Ctx) (chain branch : List Indirect) : Ctx × Bool :=
  let w := branch.headD default
  if verify_chain c chain = false ∨ c.load w.p ≠ 0 then
    ({ c with v := free_keys c.v branch }, false)
  else
    let c := c.store w.p w.key
    ({ c with inode := { c.inode with i_ctime := c.v.now } }, true)

/-! ## 4. `gas_get_block`

The function that the kernel calls to learn where a block of a file is, and to have one
allocated. -/

/-- What a call leaves: the error, the block the buffer was mapped to, and `buffer_new`. -/
structure GetBlock where
  c : Ctx
  err : Option Errno
  mapped : Option Nat
  isNew : Bool

/-- The body of `gas_get_block` from the label `reread` on.  The fuel counts the jumps back to the
label, which are made when the chain has changed under the call. -/
def gas_get_block_loop (c : Ctx) (offsets : List Nat) (create : Bool) : Nat → Option GetBlock
  | 0 => none
  | fuel + 1 =>
    let r := get_branch c offsets
    if r.isNull then some ⟨r.c, none, some (r.chain.getLastD default).key, false⟩
    else if create = false ∨ r.err = some Errno.EIO then some ⟨r.c, r.err, none, false⟩
    else if r.err = some .EAGAIN then gas_get_block_loop r.c offsets create fuel
    else
      match alloc_branch r.c (offsets.drop (r.chain.length - 1)) (r.chain.getLastD default) with
      | (c, _, some e) => some ⟨c, some e, none, false⟩
      | (c, branch, none) =>
        match splice_branch c r.chain.dropLast branch with
        | (c, false) => gas_get_block_loop c offsets create fuel
        | (c, true) => some ⟨c, none, some (branch.getLastD default).key, true⟩

/-- `gas_get_block`.  One round is enough for a call that runs alone, and the stepwise form of
`Itree/Call.lean` has no fuel at all. -/
def gas_get_block (c : Ctx) (block : Nat) (create : Bool) : GetBlock :=
  match block_to_path c.v block with
  | [] => ⟨c, some Errno.EIO, none, false⟩
  | offsets => (gas_get_block_loop c offsets create 1).getD ⟨c, some .EAGAIN, none, false⟩

set_option linter.style.nameCheck false in
/-- `__block_write_begin` of Linux on the page of `pos`, which has one buffer: map its block, and
read it unless the block is new, the page is up to date, or all of it will be written. -/
def __block_write_begin (c : Ctx) (pos len : Nat) (uptodate : Bool) : Ctx × Option Errno :=
  let r := gas_get_block c (pos / PAGE_CACHE_SIZE) true
  if r.err ≠ none then (r.c, r.err)
  else if r.isNew || uptodate || len == PAGE_CACHE_SIZE then (r.c, none)
  else
    match sb_bread r.c.v with
    | (true, v) => ({ r.c with v := v }, none)
    | (false, v) => ({ r.c with v := v }, some Errno.EIO)

/-! ## 5. Freeing

Both functions zero a pointer before they free what it pointed at. -/

/-- The entries `[i, j)` of an indirect block. -/
def block_cells (b i j : Nat) : List Cell := (List.range' i (j - i)).map (Cell.blk b)

/-- The slots `[i, j)` of `blkaddr`. -/
def idata_cells (i j : Nat) : List Cell := (List.range' i (j - i)).map Cell.idata

/-- `free_data`. -/
def free_data (c : Ctx) (ps : List Cell) : Ctx :=
  ps.foldl (fun c p =>
    let nr := c.load p
    if nr = 0 then c
    else
      let c := c.store p 0
      { c with v := gas_free_block c.v nr }) c

/-- `free_branches`, by recursion on its `depth`.  A block whose buffer cannot be read is passed
over, after its pointer was zeroed: what lies below it is not freed. -/
def free_branches : Nat → Ctx → List Cell → Ctx
  | 0, c, ps => free_data c ps
  | depth + 1, c, ps =>
    ps.foldl (fun c p =>
      let nr := c.load p
      if nr = 0 then c
      else
        let c := c.store p 0
        match sb_bread c.v with
        | (false, v) => { c with v := v }
        | (true, v) =>
          let c := free_branches depth { c with v := v } (block_cells nr 0 (INDIRCOUNT c.v))
          { c with v := gas_free_block c.v nr }) c

/-! ## 6. `gas_truncate_inode`

The cut goes along one path.  What lies to its right is freed: the rest of each indirect block on
the path, from the deepest up, and then the whole trees behind it.  `find_shared` first deals with
the part of the path that would be left empty by the cut. -/

/-- `for (k = depth; k > 1 && !offsets[k - 1]; k--);` -/
def shared_depth (offsets : List Nat) : Nat → Nat
  | 0 => 0
  | 1 => 1
  | k + 2 => if offsets.getD (k + 1) 0 = 0 then shared_depth offsets (k + 1) else k + 2

/-- `all_zeroes(p->bh->b_data, p->p)`. -/
def all_zeroes (c : Ctx) (q : Indirect) : Bool :=
  match q.p with
  | .blk b i => (List.range i).all fun j => c.v.words b j == 0
  | _ => true

/-- `while (p > chain && all_zeroes(p->bh->b_data, p->p)) p--;` as the index of `p`. -/
def climb (c : Ctx) (chain : List Indirect) : Nat → Nat
  | 0 => 0
  | i + 1 => if all_zeroes c (chain.getD (i + 1) default) then climb c chain i else i + 1

/-- `p->p--` on an entry of an indirect block. -/
def Indirect.back (q : Indirect) : Indirect :=
  match q.p with
  | .blk b i => { q with p := .blk b (i - 1) }
  | _ => q

/-- What `find_shared` leaves: the chain, `*top` in `nr`, and the index of the entry returned. -/
structure Shared where
  c : Ctx
  chain : List Indirect
  at_ : Nat

/-- `find_shared`, with `top` pointing at `nr`.  The error of `get_branch` is dropped, as in the
source. -/
def find_shared (c : Ctx) (offsets : List Nat) : Shared :=
  let c := c.store .nr 0
  let k := shared_depth offsets offsets.length
  let r := get_branch c (offsets.take k)
  -- `NULL` stands for the last entry of a whole path, which is the last one filled
  let last := r.chain.length - 1
  let q := r.chain.getD last default
  if q.key = 0 ∧ r.c.load q.p ≠ 0 then ⟨r.c, r.chain, last⟩
  else
    let p := climb r.c r.chain last
    let e := r.chain.getD p default
    if p = k - 1 ∧ 0 < p then ⟨r.c, r.chain.set p e.back, p⟩
    else ⟨(r.c.store .nr (r.c.load e.p)).store e.p 0, r.chain, p⟩

/-- The entries of an indirect block behind a pointer: `[p->p + 1, block_end(p->bh))`. -/
def cells_behind (v : Vol) (q : Indirect) : List Cell :=
  match q.p with
  | .blk b i => block_cells b (i + 1) (INDIRCOUNT v)
  | _ => []

/-- The loop that clears the ends of the indirect blocks on the shared branch; `n` is the length of
the path.  It goes from the deepest block up. -/
def clear_ends (chain : List Indirect) (n : Nat) : Nat → Ctx → Ctx
  | 0, c => c
  | i + 1, c =>
    let q := chain.getD (i + 1) default
    clear_ends chain n i (free_branches (n - 1 - (i + 1)) c (cells_behind c.v q))

/-- The loop at `do_indirects`: the whole subtrees from `first_whole` on. -/
def do_indirects (first_whole : Nat) (c : Ctx) : Ctx :=
  (List.range' first_whole (DEPTH - 1 - first_whole)).foldl (fun c first_whole =>
    let c := c.store .nr (c.load (.idata (DIRECT + first_whole)))
    if c.nr = 0 then c
    else free_branches (first_whole + 1) (c.store (.idata (DIRECT + first_whole)) 0) [.nr]) c

/-- `block_truncate_page`: the bytes behind the end of file in its last page are zeroed, unless
the file ends at a block's end, the block cannot be looked up, or it is a hole. -/
def block_truncate_page (c : Ctx) : Ctx :=
  let size := c.inode.i_size
  if size % c.v.sbi.s_blocksize = 0 then c
  else
    let r := gas_get_block c (size / c.v.sbi.s_blocksize) false
    if r.mapped = none then r.c
    else
      let page := size / PAGE_CACHE_SIZE
      { r.c with inode := { r.c.inode with
          pages := Function.update r.c.inode.pages page fun a =>
            if size % PAGE_CACHE_SIZE ≤ a then 0 else r.c.inode.pages page a } }

/-- The logical block `gas_truncate_inode` cuts at: `(i_size + blocksize - 1) >> bits`. -/
def first_cut_block (v : Vol) (size : Nat) : Nat :=
  (size + v.sbi.s_blocksize - 1) / 2 ^ v.s_blocksize_bits

/-- `gas_truncate_inode`: zero the rest of the last page, then cut the tree behind it.  A path of
length one ends in the direct pointers. -/
def gas_truncate_inode (c : Ctx) : Ctx :=
  let iblock := first_cut_block c.v c.inode.i_size
  let c := block_truncate_page c
  match block_to_path c.v iblock with
  | [] => c
  | [o] =>
    let c := do_indirects 0 (free_data c (idata_cells o DIRECT))
    { c with inode := { c.inode with i_mtime := c.v.now, i_ctime := c.v.now } }
  | o :: offsets =>
    let n := (o :: offsets).length
    let s := find_shared c (o :: offsets)
    let c := if s.c.nr = 0 then s.c else free_branches (n - 1 - s.at_) s.c [.nr]
    let c := clear_ends s.chain n s.at_ c
    let c := do_indirects (o + 1 - DIRECT) c
    { c with inode := { c.inode with i_mtime := c.v.now, i_ctime := c.v.now } }

/-- `gas_truncate`. -/
def gas_truncate (c : Ctx) : Ctx :=
  if has_blocks c.inode.i_mode then gas_truncate_inode c else c

/-- `gas_evict_inode`: the blocks and the number of an inode without links are given back.  The
inode itself goes away with its page cache.  An inode that still has links is only dropped from
core. -/
def gas_evict_inode (c : Ctx) : Ctx :=
  let c := { c with inode := { c.inode with pages := fun _ _ => 0 } }
  let c := if c.inode.i_nlink = 0 then gas_truncate { c with inode := { c.inode with i_size := 0 } }
    else c
  if c.inode.i_nlink = 0 then { c with v := gas_free_inode c.v c.inode } else c

end GasFs
