import LinuxStudy.FileBytes
import LinuxStudy.Runs
import Mathlib.Data.Fin.Basic

/-!
# The database library

`db.c` keeps strings under keys in two files. The data file has the strings, each
with a newline. The index file begins with a pointer to the free list and a hash
table of pointers; what follows are the index records, each with a pointer to the
next record of its chain, its length, the key, and where the string is. All the
numbers are text, so that the pointers are fields of seven digits and a file can
be looked at.

A deleted record goes to the free list, with blanks for its key and its string. It
is used again for a key and a string of the same lengths, and otherwise a record
is appended.

The two files are here with what the handle remembers of the record that was read
last. A failed check ends the process, by `err_dump` or `err_quit`, and is
undefined here; and so is a loop that takes more rounds than there are bytes in
the index file. The locks are left out.
-/

namespace ApueDb

open FileBytes

/-! ## The constants -/

/-- `IDXLEN_SZ`. -/
abbrev idxlenSz : ℕ := 4

/-- `SEP`. -/
abbrev sep : UInt8 := 58

/-- `NEWLINE`. -/
abbrev newline : UInt8 := 10

/-- `PTR_SZ`. -/
abbrev ptrSz : ℕ := 7

/-- `PTR_MAX`. -/
abbrev ptrMax : ℕ := 9999999

/-- `NHASH_DEF`. -/
abbrev nhashDef : ℕ := 137

/-- `FREE_OFF`. -/
abbrev freeOff : ℕ := 0

/-- `HASH_OFF`. -/
abbrev hashOff : ℕ := ptrSz

/-- `IDXLEN_MIN`. -/
abbrev idxlenMin : ℕ := 6

/-- `IDXLEN_MAX`. -/
abbrev idxlenMax : ℕ := 1024

/-- `DATLEN_MIN`. -/
abbrev datlenMin : ℕ := 2

/-- `DATLEN_MAX`. -/
abbrev datlenMax : ℕ := 1024

/-! ## The two files

The bytes of the files are lists, and an offset is a natural number. Writing at an
offset replaces the bytes there, and writing at the end makes the file longer, as
`pwrite` has it. A handle remembers where the record that was read last stands,
how long it is, what it points to, and from where it was reached: `db_store` and
`db_delete` go on from there. -/

/-- **`DB`**, with the bytes of its files. -/
structure Db where
  idx : Bytes
  dat : Bytes
  /-- Where `idxfd` is. -/
  pos : ℕ
  idxbuf : Bytes
  datbuf : Bytes
  idxoff : ℕ
  idxlen : ℕ
  datoff : ℕ
  datlen : ℕ
  ptrval : ℤ
  ptroff : ℤ
  chainoff : ℕ
  deriving DecidableEq

/-- `lseek` with `SEEK_SET`. -/
def seek (offset : ℤ) : Option ℕ := if 0 ≤ offset then some offset.toNat else none

/-- The string in an array of bytes. -/
def cstring (b : Bytes) : Bytes := b.takeWhile (· ≠ nul)

/-- `strchr`, and what is before and behind the byte. -/
def cut (c : UInt8) (s : Bytes) : Option (Bytes × Bytes) :=
  if c ∈ s then some (s.takeWhile (· ≠ c), (s.dropWhile (· ≠ c)).tail) else none

/-- A `char`, which has a sign. -/
def charVal (c : UInt8) : ℤ := if c < 128 then c.toNat else (c.toNat : ℤ) - 256

/-- The loop of `_db_hash`, in an `unsigned long`. -/
def hashLoop : ℤ → ℤ → Bytes → ℤ
  | hval, _, [] => hval
  | hval, i, c :: key => hashLoop ((hval + charVal c * i) % 2 ^ 64) (i + 1) key

/-- **`_db_hash`.** -/
def dbHash (key : Bytes) : Fin nhashDef :=
  Fin.ofNat nhashDef (hashLoop 0 1 key).toNat

/-- **`db_open`** with `O_CREAT` and `O_TRUNC`. -/
def dbCreate : Db where
  idx := (List.replicate (nhashDef + 1) (field ptrSz 0)).flatten ++ [newline]
  dat := []
  pos := (nhashDef + 1) * ptrSz + 1
  idxbuf := []
  datbuf := []
  idxoff := (nhashDef + 1) * ptrSz + 1
  idxlen := 0
  datoff := 0
  datlen := 0
  ptrval := 0
  ptroff := 0
  chainoff := 0

namespace Db

/-- `db_rewind`. -/
def rewind (db : Db) : Db :=
  { db with pos := (nhashDef + 1) * ptrSz + 1, idxoff := (nhashDef + 1) * ptrSz + 1 }

/-- `db_close`, and `db_open` of the same files with neither `O_CREAT` nor
`O_TRUNC`. -/
def reopen (db : Db) : Db := { dbCreate with idx := db.idx, dat := db.dat }

/-! ## Reading and writing records

A pointer is read from a field of seven characters by `atol`, which skips blanks,
and is written with `%*ld`, which puts them there. An index record ends with a
newline and has two separators, which `strchr` looks for; where one is missing, or
there is a third, that is an `err_dump`. Between a write to the data file and one
to the index file nothing else happens here, since the locks are left out. -/

/-- `_db_readptr`. -/
def readPtr (db : Db) (offset : ℤ) : Option (Db × ℤ) :=
  (seek offset).bind fun off =>
    let asciiptr := pread db.idx off ptrSz
    if asciiptr.length ≠ ptrSz then none
    else some ({ db with pos := off + ptrSz }, atoi (cstring asciiptr))

/-- The separators of an index record: its key, and where its string is. -/
def findSeparators (idxbuf : Bytes) : Option (Bytes × ℕ × ℕ) :=
  (cut sep idxbuf).bind fun (key, rest) =>
    (cut sep rest).bind fun (ptr1, ptr2) =>
      if sep ∈ ptr2 then none
      else if atoi ptr1 < 0 then none
      else if atoi ptr2 ≤ 0 ∨ datlenMax < atoi ptr2 then none
      else some (key, (atoi ptr1).toNat, (atoi ptr2).toNat)

/-- **`_db_readidx`.** At the end of the file it returns `-1` when it was to read on
from where it was. -/
def readIdx (db : Db) (offset : ℤ) : Option (Db × ℤ) :=
  (if offset = 0 then some db.pos else seek offset).bind fun off =>
    let front := pread db.idx off (ptrSz + idxlenSz)
    if front.length ≠ ptrSz + idxlenSz then
      if front = [] ∧ offset = 0 then some ({ db with idxoff := off }, -1) else none
    else
      let ptrval := atoi (cstring (front.take ptrSz))
      let idxlen := atoi (cstring (front.drop ptrSz))
      if idxlen < idxlenMin ∨ idxlenMax < idxlen then none
      else
        let record := pread db.idx (off + ptrSz + idxlenSz) idxlen.toNat
        if record.length ≠ idxlen.toNat ∨ record.getLast? ≠ some newline then none
        else
          (findSeparators (cstring record.dropLast)).map fun (key, datoff, datlen) =>
            ({ db with
              pos := off + ptrSz + idxlenSz + idxlen.toNat
              idxoff := off
              idxlen := idxlen.toNat
              idxbuf := key
              datoff := datoff
              datlen := datlen
              ptrval := ptrval }, ptrval)

/-- `_db_readdat`. -/
def readDat (db : Db) : Option (Db × Bytes) :=
  let datbuf := pread db.dat db.datoff db.datlen
  if datbuf.length ≠ db.datlen ∨ datbuf.getLast? ≠ some newline then none
  else some ({ db with datbuf := cstring datbuf.dropLast }, cstring datbuf.dropLast)

/-- `_db_writedat`, at an offset or at the end. -/
def writeDat (db : Db) (data : Bytes) (offset : Option ℕ) : Db :=
  let datoff := offset.getD db.dat.length
  { db with
    dat := pwrite db.dat datoff (data ++ [newline])
    datoff := datoff
    datlen := data.length + 1 }

/-- What `_db_writeidx` writes of the key and of where the string is. -/
def recordText (key : Bytes) (datoff datlen : ℕ) : Bytes :=
  key ++ sep :: (decimal datoff ++ sep :: (decimal datlen ++ [newline]))

/-- `_db_writeidx`, at an offset or at the end. -/
def writeIdx (db : Db) (key : Bytes) (offset : Option ℕ) (ptrval : ℤ) : Option Db :=
  if ptrval < 0 ∨ ptrMax < ptrval then none
  else
    let text := recordText key db.datoff db.datlen
    if text.length < idxlenMin ∨ idxlenMax < text.length then none
    else
      let idxoff := offset.getD db.idx.length
      some { db with
        idx := pwrite db.idx idxoff
          (field ptrSz ptrval.toNat ++ (field idxlenSz text.length ++ text))
        pos := idxoff + ptrSz + idxlenSz + text.length
        idxbuf := text
        idxoff := idxoff
        ptrval := ptrval }

/-- `_db_writeptr`. -/
def writePtr (db : Db) (offset ptrval : ℤ) : Option Db :=
  if ptrval < 0 ∨ ptrMax < ptrval then none
  else
    (seek offset).map fun off =>
      { db with idx := pwrite db.idx off (field ptrSz ptrval.toNat), pos := off + ptrSz }

/-! ## Finding a record -/

/-- The loop of `_db_find_and_lock`. -/
def findLoop (key : Bytes) : ℕ → Db → ℤ → Option (Db × ℤ)
  | 0, _, _ => none
  | rounds + 1, db, offset =>
    if offset = 0 then some (db, offset)
    else do
      let (db, nextoffset) ← db.readIdx offset
      if db.idxbuf = key then some (db, offset)
      else findLoop key rounds { db with ptroff := offset } nextoffset

/-- **`_db_find_and_lock`**: whether the record was found. -/
def findAndLock (db : Db) (key : Bytes) : Option (Db × Bool) := do
  let chainoff := dbHash key * ptrSz + hashOff
  let db := { db with chainoff := chainoff, ptroff := chainoff }
  let (db, offset) ← db.readPtr db.ptroff
  let (db, offset) ← findLoop key db.idx.length db offset
  return (db, offset ≠ 0)

/-! ## The calls

The calls return what the library returns, and the handle as they leave it. Where
a call goes wrong in a way that the library takes for its own mistake the process
ends, and then there is no handle. -/

/-- **`db_fetch`.** -/
def fetch (db : Db) (key : Bytes) : Option (Db × Option Bytes) := do
  let (db, found) ← db.findAndLock key
  if found then
    let (db, data) ← db.readDat
    return (db, some data)
  else return (db, none)

/-- **`_db_dodelete`.** The key that `_db_writeidx` prints into `idxbuf` is
`idxbuf` itself here; it is read as writing the same bytes. -/
def doDelete (db : Db) : Option Db := do
  let db := { db with
    datbuf := List.replicate (db.datlen - 1) blank
    idxbuf := List.replicate db.idxbuf.length blank }
  let db := db.writeDat db.datbuf (some db.datoff)
  let (db, freeptr) ← db.readPtr freeOff
  let saveptr := db.ptrval
  let db ← db.writeIdx db.idxbuf (some db.idxoff) freeptr
  let db ← db.writePtr freeOff db.idxoff
  db.writePtr db.ptroff saveptr

/-- **`db_delete`.** -/
def delete (db : Db) (key : Bytes) : Option (Db × ℤ) := do
  let (db, found) ← db.findAndLock key
  if found then
    let db ← db.doDelete
    return (db, 0)
  else return (db, -1)

/-- The loop of `_db_findfree`: where it ended, and where that was linked from. -/
def findFreeLoop (keylen datlen : ℕ) : ℕ → Db → ℤ → ℤ → Option (Db × ℤ × ℤ)
  | 0, _, _, _ => none
  | rounds + 1, db, saveoffset, offset =>
    if offset = 0 then some (db, saveoffset, offset)
    else do
      let (db, nextoffset) ← db.readIdx offset
      if db.idxbuf.length = keylen ∧ db.datlen = datlen then some (db, saveoffset, offset)
      else findFreeLoop keylen datlen rounds db offset nextoffset

/-- **`_db_findfree`**: whether there was one. -/
def findFree (db : Db) (keylen datlen : ℕ) : Option (Db × Bool) := do
  let (db, offset) ← db.readPtr freeOff
  let (db, saveoffset, offset) ← findFreeLoop keylen datlen db.idx.length db freeOff offset
  if offset = 0 then return (db, false)
  else
    let db ← db.writePtr saveoffset db.ptrval
    return (db, true)

/-- The flags of `db_store`. -/
inductive Flag
  | insert
  | replace
  | store
  deriving DecidableEq

/-- A record is appended to the files and put in front of its chain. -/
def appendRecord (db : Db) (key data : Bytes) (ptrval : ℤ) : Option Db := do
  let db := db.writeDat data none
  let db ← db.writeIdx key none ptrval
  db.writePtr db.chainoff db.idxoff

/-- `db_store`, where there is a record of the key. -/
def storeFound (db : Db) (key data : Bytes) (flag : Flag) : Option (Db × ℤ) :=
  if flag = .insert then some (db, 1)
  else if data.length + 1 ≠ db.datlen then do
    let db ← db.doDelete
    let (db, ptrval) ← db.readPtr db.chainoff
    let db ← db.appendRecord key data ptrval
    return (db, 0)
  else some (db.writeDat data (some db.datoff), 0)

/-- `db_store`, where there is none. -/
def storeNew (db : Db) (key data : Bytes) (flag : Flag) : Option (Db × ℤ) :=
  if flag = .replace then some (db, -1)
  else do
    let (db, ptrval) ← db.readPtr db.chainoff
    let (db, free) ← db.findFree key.length (data.length + 1)
    if free then
      let db := db.writeDat data (some db.datoff)
      let db ← db.writeIdx key (some db.idxoff) ptrval
      let db ← db.writePtr db.chainoff db.idxoff
      return (db, 0)
    else
      let db ← db.appendRecord key data ptrval
      return (db, 0)

/-- **`db_store`.** -/
def store (db : Db) (key data : Bytes) (flag : Flag) : Option (Db × ℤ) :=
  if data.length + 1 < datlenMin ∨ datlenMax < data.length + 1 then none
  else (db.findAndLock key).bind fun (db, found) =>
    if found then db.storeFound key data flag else db.storeNew key data flag

/-- A key of blanks. -/
def Blank (key : Bytes) : Prop := ∀ c ∈ key, c = blank

instance (key : Bytes) : Decidable (Blank key) := List.decidableBAll _ _

/-- The loop of `db_nextrec`: whether there is a record that is not empty. -/
def nextLoop : ℕ → Db → Option (Db × Bool)
  | 0, _ => none
  | rounds + 1, db => do
    let (db, ptrval) ← db.readIdx 0
    if ptrval < 0 then return (db, false)
    else if Blank db.idxbuf then nextLoop rounds db
    else return (db, true)

/-- **`db_nextrec`**, with the key. -/
def nextRec (db : Db) : Option (Db × Option (Bytes × Bytes)) := do
  let (db, found) ← nextLoop db.idx.length db
  if found then
    let (db, data) ← db.readDat
    return (db, some (db.idxbuf, data))
  else return (db, none)

end Db

end ApueDb
