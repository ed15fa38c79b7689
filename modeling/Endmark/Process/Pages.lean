import Std.Data.HashMap
import Endmark.Machine.State

/-!
# Pages

The memory of a process is mapped in pages.  Regions say which pages there are and what may be
done with them.  A page that has been touched stands for itself; all others hold zeros.
-/

namespace Endmark.Process

open Machine (Memory)

def pageSize : Nat := 4096

/-- The pages that so many bytes take. -/
def pageCount (bytes : Nat) : Nat :=
  (bytes + pageSize - 1) / pageSize

/-- What may be done with memory. -/
structure Rights where
  read : Bool := true
  write : Bool := true
  execute : Bool := false
deriving DecidableEq, Repr, Inhabited

/-- May bytes be loaded?  Where they may be stored they may be loaded as well. -/
def Rights.allowLoad (r : Rights) : Bool :=
  r.read || r.write

/-- The bytes of one page, and what may be done with them. -/
structure Page where
  bytes : ByteArray
  rights : Rights
deriving Inhabited

namespace Page

/-- A page that begins with the bytes, and zeros behind them. -/
def ofBytes (bytes : ByteArray) (rights : Rights) : Page :=
  ⟨bytes ++ ⟨Array.replicate (pageSize - bytes.size) 0⟩, rights⟩

def zeros (rights : Rights) : Page :=
  ofBytes .empty rights

def get (p : Page) (offset : Nat) : UInt8 :=
  if h : offset < p.bytes.size then p.bytes.get offset h else 0

def bytesFrom (p : Page) (offset : Nat) : Nat → List UInt8
  | 0 => []
  | count + 1 => p.get offset :: p.bytesFrom (offset + 1) count

def replace (bytes : ByteArray) (offset : Nat) (v : UInt8) : ByteArray :=
  if h : offset < bytes.size then bytes.set offset v h else bytes

def set (p : Page) (offset : Nat) (v : UInt8) : Page :=
  match p with
  | ⟨bytes, rights⟩ => ⟨replace bytes offset v, rights⟩

/-- The word at an offset, with its lowest byte first. -/
def getWord (p : Page) (offset : Nat) : UInt64 :=
  let byte (k : Nat) : UInt64 := (p.get (offset + k)).toUInt64
  byte 0 ||| byte 1 <<< 8 ||| byte 2 <<< 16 ||| byte 3 <<< 24 ||| byte 4 <<< 32 |||
    byte 5 <<< 40 ||| byte 6 <<< 48 ||| byte 7 <<< 56

def setWord (p : Page) (offset : Nat) (v : UInt64) : Page :=
  match p with
  | ⟨bytes, rights⟩ =>
    let bytes := replace bytes offset v.toUInt8
    let bytes := replace bytes (offset + 1) (v >>> 8).toUInt8
    let bytes := replace bytes (offset + 2) (v >>> 16).toUInt8
    let bytes := replace bytes (offset + 3) (v >>> 24).toUInt8
    let bytes := replace bytes (offset + 4) (v >>> 32).toUInt8
    let bytes := replace bytes (offset + 5) (v >>> 40).toUInt8
    let bytes := replace bytes (offset + 6) (v >>> 48).toUInt8
    let bytes := replace bytes (offset + 7) (v >>> 56).toUInt8
    ⟨bytes, rights⟩

end Page

/-- Some pages, one after the other. -/
structure Region where
  first : Nat
  count : Nat
  rights : Rights
deriving DecidableEq, Repr, Inhabited

namespace Region

/-- The number of the page after the last one. -/
def stop (r : Region) : Nat :=
  r.first + r.count

def contains (r : Region) (n : Nat) : Bool :=
  r.first ≤ n && n < r.stop

/-- The pages of the region from one number up to another. -/
def part (r : Region) (first stop : Nat) : List Region :=
  let first := max r.first first
  let stop := min r.stop stop
  if first < stop then [{ r with first, count := stop - first }] else []

/-- The region without the pages from one number up to another. -/
def without (r : Region) (first stop : Nat) : List Region :=
  r.part 0 first ++ r.part stop r.stop

end Region

/-- The memory of a process: what is mapped, and the pages that were touched. -/
structure Pages where
  /-- The regions, from the lowest to the highest.  They have no pages in common. -/
  regions : List Region
  touched : Std.HashMap Nat Page

namespace Pages

def empty : Pages :=
  ⟨[], {}⟩

/-- What may be done with the page that has a number, if it is mapped. -/
def rights? (m : Pages) (n : Nat) : Option Rights :=
  (m.regions.find? (·.contains n)).map (·.rights)

/-- The byte at an address, if it may be loaded. -/
def load? (m : Pages) (a : UInt64) : Option UInt8 :=
  let n := a.toNat / pageSize
  match m.touched[n]? with
  | some page => if page.rights.allowLoad then some (page.get (a.toNat % pageSize)) else none
  | none => if (m.rights? n).any (·.allowLoad) then some 0 else none

/-- The pages with the one that has a number changed, if it may be written. -/
def change? (m : Pages) (n : Nat) (f : Page → Page) : Option Pages :=
  match m with
  | ⟨regions, touched⟩ =>
    match touched[n]?.map (·.rights.write) with
    | some true => some ⟨regions, touched.modify n f⟩
    | some false => none
    | none =>
      match (regions.find? (·.contains n)).map (·.rights) with
      | some rights =>
        if rights.write then some ⟨regions, touched.insert n (f (.zeros rights))⟩ else none
      | none => none

/-- The pages with a byte stored at an address, if that may be done. -/
def store? (m : Pages) (a : UInt64) (v : UInt8) : Option Pages :=
  m.change? (a.toNat / pageSize) (·.set (a.toNat % pageSize) v)

/-- Is the word at `a` on one page? -/
def isWithinPage (a : UInt64) : Bool :=
  a.toNat % pageSize + 8 ≤ pageSize

/-- The word at an address.  A page that nothing touched holds zeros. -/
def loadWord? (m : Pages) (a : UInt64) : Option UInt64 :=
  if isWithinPage a then
    let n := a.toNat / pageSize
    match m.touched[n]? with
    | some page =>
      if page.rights.allowLoad then some (page.getWord (a.toNat % pageSize)) else none
    | none => if (m.rights? n).any (·.allowLoad) then some 0 else none
  else
    (Machine.bytesFrom? load? m a 8).map Machine.wordOfBytes

/-- The pages with a word stored at an address, if that may be done. -/
def storeWord? (m : Pages) (a v : UInt64) : Option Pages :=
  if isWithinPage a then m.change? (a.toNat / pageSize) (·.setWord (a.toNat % pageSize) v)
  else Machine.withBytes? store? m a (Machine.wordBytes v)

instance : Memory Pages where
  load? := load?
  store? := store?
  loadWord? := loadWord?
  storeWord? := storeWord?

/-- Some bytes of a page from an offset on, as far as it reaches, if instructions may be fetched
there. -/
def codeBytes (m : Pages) (n offset count : Nat) : List UInt8 :=
  match m.touched[n]? with
  | some page =>
    if page.rights.execute then page.bytesFrom offset (min count (pageSize - offset)) else []
  | none =>
    if (m.rights? n).any (·.execute) then List.replicate (min count (pageSize - offset)) 0 else []

/-- Some bytes from an address on, as far as instructions may be fetched there; no more than a
page of them. -/
def fetch (m : Pages) (a : UInt64) (count : Nat) : List UInt8 :=
  let n := a.toNat / pageSize
  let first := m.codeBytes n (a.toNat % pageSize) count
  if first.isEmpty || first.length = count then first
  else first ++ m.codeBytes (n + 1) 0 (count - first.length)

/-! ### Mapping -/

/-- The pages without those from one number up to another. -/
def unmap (m : Pages) (first stop : Nat) : Pages :=
  match m with
  | ⟨regions, touched⟩ =>
    ⟨regions.flatMap (·.without first stop), touched.filter fun n _ => n < first || stop ≤ n⟩

/-- Regions with one more among them, which has no pages in common with them. -/
def insertRegion (r : Region) : List Region → List Region
  | [] => [r]
  | s :: rest => if r.first < s.first then r :: s :: rest else s :: insertRegion r rest

/-- The pages with a region mapped, which holds zeros.  What was there is lost. -/
def map (m : Pages) (r : Region) : Pages :=
  let m := if m.regions.all fun s => (s.part r.first r.stop).isEmpty then m
    else m.unmap r.first r.stop
  match m with
  | ⟨regions, touched⟩ => ⟨insertRegion r regions, touched⟩

def fill (m : Pages) (first : Nat) (bytes : ByteArray) (rights : Rights) : Pages :=
  (List.range (pageCount bytes.size)).foldl
    (fun m k =>
      match m with
      | ⟨regions, touched⟩ =>
        let part := bytes.extract (k * pageSize) ((k + 1) * pageSize)
        ⟨regions, touched.insert (first + k) (.ofBytes part rights)⟩) m

/-- Maps as many pages as the bytes take, with the bytes on them. -/
def mapBytes (m : Pages) (first : Nat) (bytes : ByteArray) (rights : Rights) : Pages :=
  (m.map ⟨first, pageCount bytes.size, rights⟩).fill first bytes rights

/-- The pages with other rights for those from one number up to another. -/
def protect (m : Pages) (first stop : Nat) (rights : Rights) : Pages :=
  match m with
  | ⟨regions, touched⟩ =>
    let split (r : Region) : List Region :=
      r.part 0 first ++ (r.part first stop).map ({ · with rights }) ++ r.part stop r.stop
    ⟨regions.flatMap split, touched.map fun n page =>
      if first ≤ n && n < stop then { page with rights } else page⟩

/-- The number of the first page from a number on that is not mapped. -/
def gapFrom (m : Pages) (n : Nat) : Nat :=
  m.regions.foldl (fun n r => if r.contains n then r.stop else n) n

/-- Are there no pages from one number up to another? -/
def isFree (m : Pages) (first stop : Nat) : Bool :=
  m.regions.all fun r => (r.part first stop).isEmpty

/-- The highest place below a number for some pages, among regions from the highest to the
lowest. -/
def roomBelow (low count : Nat) : Nat → List Region → Option Nat
  | top, [] => if low + count ≤ top then some (top - count) else none
  | top, r :: rest =>
    if top ≤ r.first then roomBelow low count top rest
    else if max low r.stop + count ≤ top then some (top - count)
    else roomBelow low count r.first rest

/-- The highest place for some pages from one number up to another where none are. -/
def room? (m : Pages) (low top count : Nat) : Option Nat :=
  roomBelow low count top m.regions.reverse

end Pages

end Endmark.Process
