import Endmark.Process.Service.Files

/-!
# Memory on request

Pages are mapped, protected and taken away, and the heap grows and shrinks.
-/

namespace Endmark.Process.Service

def isPageStart (a : UInt64) : Bool :=
  a.toNat % pageSize = 0

def pageOf (a : UInt64) : Nat :=
  a.toNat / pageSize

/-- The number of the page above all those that are mapped where the system likes. -/
def mapTop : Nat := 0x7FFFF7FFF

/-- The number of the lowest page that is mapped unless another one is insisted on. -/
def mapBottom : Nat := 16

/-- The most that can be written to and is mapped at once. -/
def mapLimit : Nat := 0x100000000

/-- What may be done with memory, by the bits that say it. -/
def rightsOf (bits : UInt64) : Rights :=
  ⟨hasBits bits 1, hasBits bits 2, hasBits bits 4⟩

/-- Where memory is to be mapped. -/
inductive Site where
  /-- There, if nothing is there, or where the system likes. -/
  | hint (address : UInt64)
  | fixed (address : UInt64)
  | fresh (address : UInt64)

/-- Where memory is to be mapped, by the bits that say it. -/
def Site.ofBits (address bits : UInt64) : Site :=
  if hasBits bits 0x100000 then .fresh address
  else if hasBits bits 0x10 then .fixed address
  else .hint address

/-- Can pages be at an address that is asked for? -/
def checkSite (a : UInt64) (count : Nat) : Service PUnit := do
  if userLimit < a.toNat + count * pageSize then
    refuse .outOfMemory
  if !isPageStart a then
    refuse .badArgument

/-- The number of the first page for memory that is to be mapped. -/
def siteFor (m : Pages) (count : Nat) : Site → Service Nat
  | .fixed a => do
    checkSite a count
    return pageOf a
  | .fresh a => do
    checkSite a count
    if m.isFree (pageOf a) (pageOf a + count) then return pageOf a
    else refuse (.files .present)
  | .hint a => do
    let first := max mapBottom (pageOf a)
    let fits := (first + count) * pageSize ≤ userLimit && m.isFree first (first + count)
    if pageOf a ≠ 0 && fits then
      return first
    match m.room? mapBottom mapTop count with
    | some first => return first
    | none => refuse .outOfMemory

/-- The bytes that mapped memory starts with, if it is mapped from a file. -/
def contentOf (bits prot : UInt64) (file? : Option OpenFile) (offset : Nat) :
    Service (List UInt8) := do
  let sharing := (bits &&& 0xF).toNat
  match file? with
  | none => if sharing = 1 || sharing = 2 then return [] else refuse .badArgument
  | some file =>
    if sharing = 0 || 3 < sharing then
      refuse .badArgument
    if !file.reads || (sharing != 2 && hasBits prot 2 && !file.writes) then
      refuse .denied
    match file.channel with
    | .file p => return ((← getWorld).bytesAt p).drop offset
    | channel => refuse (if channel.isStream && hasBits prot 4 then .notPermitted else .noDevice)

def map (address size prot bits n offset : UInt64) : Service UInt64 := do
  if !isPageStart offset then
    refuse .badArgument
  let file? ← if hasBits bits 0x20 then pure none else some <$> Prod.snd <$> openFile n
  if size = 0 then
    refuse .badArgument
  let count := pageCount size.toNat
  if userLimit < count * pageSize then
    refuse .outOfMemory
  let m ← getMemory
  let first ← siteFor m count (.ofBits address bits)
  let content ← contentOf bits prot file? offset.toNat
  let rights := rightsOf prot
  if rights.write && !hasBits bits 0x4001 && mapLimit < count * pageSize then
    refuse .outOfMemory
  let m := m.map ⟨first, count, rights⟩
  remap first (first + count) (m.fill first (content.take (count * pageSize)).toByteArray rights)
  return UInt64.ofNat (first * pageSize)

/-- Takes memory away. -/
def unmap (address size : UInt64) : Service UInt64 := do
  if !isPageStart address || size = 0 || userLimit < address.toNat + size.toNat then
    refuse .badArgument
  let first := pageOf address
  let stop := first + pageCount size.toNat
  remap first stop ((← getMemory).unmap first stop)
  return 0

/-- Says what may be done with memory. -/
def protect (address size prot : UInt64) : Service UInt64 := do
  if !isPageStart address then
    refuse .badArgument
  if size = 0 then
    return 0
  let first := pageOf address
  let stop := first + pageCount size.toNat
  if Number.wordCount ≤ stop * pageSize then
    refuse .outOfMemory
  if !onlyBits prot 0xF then
    refuse .badArgument
  let m ← getMemory
  let reached := min stop (m.gapFrom first)
  remap first reached (m.protect first reached (rightsOf prot))
  if reached < stop then refuse .outOfMemory else return 0

/-- Sets the end of the heap, if that can be done; gives its end. -/
def setHeap (address : UInt64) : Service UInt64 := do
  let w ← getWorld
  let m ← getMemory
  let before := pageCount w.heapStop
  let after := pageCount address.toNat
  if address.toNat < w.heapStart then
    return UInt64.ofNat w.heapStop
  if before < after then
    if mapTop < after || mapLimit < (after - before) * pageSize || !m.isFree before after then
      return UInt64.ofNat w.heapStop
    remap before after (m.map ⟨before, after - before, {}⟩)
  else if after < before then
    remap after before (m.unmap after before)
  changeWorld ({ · with heapStop := address.toNat })
  return address

/-- The number of pages that some bytes need, where a count of bytes that is too large starts
again at zero. -/
def wrappedCount (size : UInt64) : Nat :=
  (size + UInt64.ofNat (pageSize - 1)).toNat / pageSize

/-- Checks that memory from the start of a page on is mapped. -/
def checkMapped (address size : UInt64) : Service PUnit := do
  if !isPageStart address then
    refuse .badArgument
  let first := pageOf address
  if (← getMemory).gapFrom first < first + wrappedCount size then
    refuse .outOfMemory

/-- Makes sure that mapped memory is kept where it comes from, which it is. -/
def keep (address size bits : UInt64) : Service UInt64 := do
  if !onlyBits bits 7 || bits &&& 5 == 5 then
    refuse .badArgument
  checkMapped address size
  return 0

/-- Takes advice on how memory is used; the only one that matters is that what it holds is not
needed any more. -/
def advise (address size advice : UInt64) : Service UInt64 := do
  if !isPageStart address || 4 < number advice || (size ≠ 0 && wrappedCount size = 0) then
    refuse .badArgument
  if number advice = 4 then
    let first := pageOf address
    let stop := first + wrappedCount size
    let m ← getMemory
    remap first stop { m with touched := m.touched.filter fun n _ => n < first || stop ≤ n }
  checkMapped address size
  return 0

/-- Makes sure that memory stays where it is, which it does. -/
def pin (address size : UInt64) : Service UInt64 := do
  let first := pageOf address
  let count := wrappedCount (size + UInt64.ofNat (address.toNat % pageSize))
  if (← getMemory).gapFrom first < first + count then
    refuse .outOfMemory
  return 0

end Endmark.Process.Service
