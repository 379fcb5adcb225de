import Mathlib.Data.List.Nodup
import Mathlib.Data.Int.Notation
import Mathlib.Logic.Function.Basic

/-! # The file system log and the buffer cache (`log.c` and `bio.c`)

The sections and loop bodies of `log.c` as they act on the log structure, on the cached
buffers and on the disk. The log area is that of the superblock. `locked` are the blocks whose
buffers processes hold. -/

namespace OsSolutions

abbrev MAXOPBLOCKS : ℕ := 10

abbrev LOGSIZE : ℕ := MAXOPBLOCKS * 3

abbrev NBUF : ℕ := MAXOPBLOCKS * 3

abbrev BlockNo := UInt32

/-- The `BSIZE / 4` words of a block, as the fields of `struct logheader` see them. -/
abbrev Block := Fin 128 → UInt32

/-- A cached block and its flag `B_DIRTY`. -/
structure Buf where
  data : Block
  dirty : Bool

/-- The disk behind the buffer cache. `lru` are the blocks that have one of the `NBUF` buffers,
from the one that was released last on. -/
structure Drive where
  disk : BlockNo → Block
  cache : BlockNo → Option Buf
  lru : List BlockNo
  nodup : lru.Nodup

namespace Drive

/-- The machine is switched on. -/
def boot (disk : BlockNo → Block) : Drive := ⟨disk, fun _ => none, [], .nil⟩

/-- What the owner of the buffer finds. -/
def view (d : Drive) (b : BlockNo) : Block :=
  match d.cache b with
  | some buf => buf.data
  | none => d.disk b

def dirty (d : Drive) (b : BlockNo) : Bool := (d.cache b).any Buf.dirty

/-- The buffer that `bget` recycles: the least recently used one that nobody has locked and that
is not dirty. -/
def victim (d : Drive) (locked : List BlockNo) : Option BlockNo :=
  d.lru.reverse.find? fun c => c ∉ locked ∧ d.dirty c = false

/-- The buffer is taken from its block. -/
def recycle (d : Drive) (c : BlockNo) : Drive where
  disk := d.disk
  cache := Function.update d.cache c none
  lru := d.lru.erase c
  nodup := d.nodup.erase c

/-- A buffer gets the block, and its data are read. Where it stands in the list does not matter
before it is released. -/
def fetch (d : Drive) (b : BlockNo) : Drive where
  disk := d.disk
  cache := Function.update d.cache b (some ⟨d.disk b, false⟩)
  lru := b :: d.lru.erase b
  nodup := List.nodup_cons.mpr ⟨d.nodup.not_mem_erase, d.nodup.erase b⟩

/-- `none` is the panic "bget: no buffers". -/
def bread (d : Drive) (locked : List BlockNo) (b : BlockNo) : Option (Drive × Block) :=
  match d.cache b with
  | some buf => some (d, buf.data)
  | none =>
      if d.lru.length < NBUF then some (d.fetch b, d.disk b)
      else (d.victim locked).map fun c => ((d.recycle c).fetch b, d.disk b)

/-- The owner of the buffer puts `data` into it. -/
def store (d : Drive) (b : BlockNo) (data : Block) : Drive :=
  { d with cache := Function.update d.cache b (some ⟨data, d.dirty b⟩) }

/-- The owner of the buffer has put `data` into it and writes it to the disk. -/
def bwrite (d : Drive) (b : BlockNo) (data : Block) : Drive :=
  { d with
    disk := Function.update d.disk b data
    cache := Function.update d.cache b (some ⟨data, false⟩) }

/-- `b->flags |= B_DIRTY` keeps the buffer from being recycled. -/
def pin (d : Drive) (b : BlockNo) : Drive :=
  { d with cache := Function.update d.cache b (some ⟨d.view b, true⟩) }

/-- The buffer moves to the head of the list. -/
def brelse (d : Drive) (b : BlockNo) : Drive :=
  { d with
    lru := b :: d.lru.erase b
    nodup := List.nodup_cons.mpr ⟨d.nodup.not_mem_erase, d.nodup.erase b⟩ }

end Drive

/-! ## The header block -/

/-- The stores of `write_head`: the number of blocks in word 0, block `i` in word `i + 1`. -/
def putHead (lh : List BlockNo) (b : Block) : Block := fun k =>
  if k.val = 0 then UInt32.ofNat lh.length else (lh[k.val - 1]?).getD (b k)

/-- The loads of `read_head`. There is no header in memory for more than `LOGSIZE` blocks. -/
def getHead (b : Block) : Option (List BlockNo) :=
  let n := (b 0).toInt32.toInt
  if n ≤ LOGSIZE then
    some ((List.range n.toNat).map fun i => b (Fin.ofNat _ (i + 1)))
  else
    none

/-! ## The log in memory -/

/-- What `initlog` takes from the superblock. There is room for the header block. -/
structure LogArea where
  start : BlockNo
  size : ℕ
  header : 0 < size

/-- The log area that `mkfs` lays out. -/
def LogArea.mkfs : LogArea := ⟨2, LOGSIZE, by decide⟩

/-- `struct log` without the fields of `LogArea`. `lh` is `lh.block` up to `lh.n`. -/
structure Log where
  outstanding : ℤ
  committing : Bool
  lh : List BlockNo

namespace Log

/-- The zeroed data segment. -/
def zero : Log := ⟨0, false, []⟩

/-- One pass of the loop of `begin_op`, or `none` to sleep. -/
def beginOp (log : Log) : Option Log :=
  if log.committing then
    none
  else if (log.lh.length : ℤ) + (log.outstanding + 1) * MAXOPBLOCKS > LOGSIZE then
    none
  else
    some { log with outstanding := log.outstanding + 1 }

/-- The first section of `end_op`, and `do_commit`. It wakes the sleepers when it does not
commit. `none` is the panic "log.committing". -/
def endOp (log : Log) : Option (Log × Bool) :=
  let log := { log with outstanding := log.outstanding - 1 }
  if log.committing then
    none
  else if log.outstanding = 0 then
    some ({ log with committing := true }, true)
  else
    some (log, false)

/-- The last section of `end_op` after a commit. -/
def endCommit (log : Log) : Log := { log with committing := false }

/-- The tests of `log_write`, which come before it takes the lock. A failure is one of the panics
"too big a transaction" and "log_write outside of trans". -/
def logWriteTests (area : LogArea) (log : Log) : Bool :=
  if log.lh.length ≥ LOGSIZE ∨ log.lh.length ≥ area.size - 1 then false
  else if log.outstanding < 1 then false
  else true

/-- The section of `log_write`. `none` is a store behind the end of `lh.block`. -/
def logWrite (log : Log) (b : BlockNo) : Option Log :=
  let i := log.lh.idxOf b
  if i ≥ LOGSIZE then
    none
  else if i = log.lh.length then
    some { log with lh := log.lh ++ [b] }
  else
    some { log with lh := log.lh.set i b }

end Log

/-! ## Loop bodies of the commit and of recovery -/

namespace LogArea

/-- The disk block with the logged copy `tail`. -/
def block (area : LogArea) (tail : ℕ) : BlockNo := area.start + UInt32.ofNat tail + 1

/-- One pass of the loop of `write_log`, for the block `b = log.lh.block[tail]`. -/
def writeLog (area : LogArea) (locked : List BlockNo) (tail : ℕ) (b : BlockNo) (d : Drive) :
    Option Drive := do
  let (d, _) ← d.bread locked (area.block tail)
  let (d, data) ← d.bread (area.block tail :: locked) b
  return ((d.bwrite (area.block tail) data).brelse b).brelse (area.block tail)

/-- One pass of the loop of `install_trans`, for the block `b = log.lh.block[tail]`. -/
def installTrans (area : LogArea) (locked : List BlockNo) (tail : ℕ) (b : BlockNo) (d : Drive) :
    Option Drive := do
  let (d, data) ← d.bread locked (area.block tail)
  let (d, _) ← d.bread (area.block tail :: locked) b
  return ((d.bwrite b data).brelse (area.block tail)).brelse b

def writeHead (area : LogArea) (locked : List BlockNo) (lh : List BlockNo) (d : Drive) :
    Option Drive := do
  let (d, buf) ← d.bread locked area.start
  return (d.bwrite area.start (putHead lh buf)).brelse area.start

def readHead (area : LogArea) (locked : List BlockNo) (d : Drive) :
    Option (Drive × Option (List BlockNo)) := do
  let (d, buf) ← d.bread locked area.start
  return (d.brelse area.start, getHead buf)

end LogArea

end OsSolutions
