import RiscvSim.LruCache
import RiscvSim.Library.Bytes

namespace RiscvSim

open Results

inductive AccessType where
  | READ | WRITE | EXEC
  deriving DecidableEq

abbrev PhysAddr := U64

/-- `satp` is a static member of the class and is kept with the object here. -/
structure MMU where
  instTLB_ : LRUCache U32 PhysAddr
  dataTLB_ : LRUCache U32 PhysAddr
  pmem_size_ : ℕ
  pmem_ : ℕ → U8
  satp : U32

namespace MMU

def pagesize : U32 := 4096#32

def levels : ℕ := 2

def ptesize : U32 := 4#32

def instTLB : LRUCache.Member MMU U32 PhysAddr where
  get mmu := mmu.instTLB_
  set c mmu := { mmu with instTLB_ := c }
  get_set _ _ := rfl
  set_get _ := rfl
  set_set _ _ _ := rfl

def dataTLB : LRUCache.Member MMU U32 PhysAddr where
  get mmu := mmu.dataTLB_
  set c mmu := { mmu with dataTLB_ := c }
  get_set _ _ := rfl
  set_get _ := rfl
  set_set _ _ _ := rfl

def isVirtualAddressing (mmu : MMU) : Bool := mmu.satp >>> 31 != 0#32

def flush (mmu : MMU) : MMU :=
  { mmu with instTLB_ := mmu.instTLB_.clear, dataTLB_ := mmu.dataTLB_.clear }

/-- The parameter is 32 bits wide, so the upper half of a physical address is lost here. -/
def getMemPtr (mmu : MMU) (n : ℕ) (pa : U64) : Except Stop ℕ :=
  let pa := (pa.setWidth 32 : U32).toNat
  if mmu.pmem_size_ ≤ pa + n then .error (.simException "Address is out of memory")
  else .ok pa

def readMem (mmu : MMU) (n ptr : ℕ) : BitVec (8 * n) := Bytes.read mmu.pmem_ ptr n

def writeMem (mmu : MMU) {n : ℕ} (ptr : ℕ) (data : BitVec (8 * n)) : MMU :=
  { mmu with pmem_ := Bytes.write mmu.pmem_ ptr data }

def vpn (va : U32) (i : ℕ) : U32 := if i ≠ 0 then va >>> 22 else (va <<< 10) >>> 22

/-- The loop of `translate`: the page table entry it leaves with, and the level. -/
def walk (mmu : MMU) (va : U32) : ℕ → U64 → Except Stop (ℕ × ℕ)
  | i, table_pa => do
    let ptr ← mmu.getMemPtr 4 (table_pa + (ptesize * vpn va i).setWidth 64)
    let pte : U32 := mmu.readMem 4 ptr
    if pte &&& 1#32 = 0#32 ∨ (pte &&& 2#32 = 0#32 ∧ pte &&& 4#32 = 4#32) then
      throw (.simException "page fault valid or R W")
    else if pte &&& 2#32 ≠ 0#32 ∨ pte &&& 8#32 ≠ 0#32 then
      return (ptr, i)
    else match i with
      | 0 => throw (.simException "page fault i < 0")
      | i + 1 => walk mmu va i ((pte >>> 10 * pagesize).setWidth 64)

def allows (acc : AccessType) (pte : U32) : Bool :=
  match acc with
  | .READ => pte &&& 2#32 != 0#32
  | .WRITE => pte &&& 4#32 != 0#32
  | .EXEC => pte &&& 8#32 != 0#32

def touch (acc : AccessType) (pte : U32) : U32 :=
  match acc with
  | .WRITE => pte ||| 64#32 ||| 128#32
  | _ => pte ||| 64#32

/-- The address a leaf found at level `i` gives. -/
def leafAddr (va pte : U32) (i : ℕ) : U64 :=
  let pa := pte.setWidth 64 <<< 2
  if i ≠ 0 then (va &&& 0x003fffff#32).setWidth 64 ||| (pa &&& (~~~1#64) <<< 22)
  else (va &&& 0xfff#32).setWidth 64 ||| (pa &&& (~~~1#64) <<< 12)

def translate (va : U32) (acc : AccessType) : EStateM Stop MMU U64 := do
  let mmu ← get
  if mmu.isVirtualAddressing then
    let table_pa := ((mmu.satp &&& 0x3fffff#32) * pagesize).setWidth 64
    let (ptr, i) ← lift (mmu.walk va (levels - 1) table_pa)
    let pte : U32 := mmu.readMem 4 ptr
    if allows acc pte = false then
      throw (.simException "page fault")
    else if i ≠ 0 ∧ pte >>> 10 &&& 0x3ff#32 ≠ 0#32 then
      throw (.simException "page fault")
    else
      set (mmu.writeMem (n := 4) ptr (touch acc pte))
      return leafAddr va (touch acc pte) i
  else
    return va.setWidth 64

/-- The address of an access: through a TLB, or the virtual address itself. -/
def physAddr (tlb : LRUCache.Member MMU U32 PhysAddr) (va : U32) (acc : AccessType) :
    EStateM Stop MMU U64 := do
  if (← get).isVirtualAddressing then
    let res ← LRUCache.insert tlb va (translate va acc)
    match (tlb.get (← get)).deref res.1 with
    | some pa => return pa
    | none => throw .undefinedBehaviour
  else
    return va.setWidth 64

/-- `load<T>` for an `n`-byte type. -/
def load (n : ℕ) (va : U32) (instRead : Bool := true) : EStateM Stop MMU (BitVec (8 * n)) := do
  let pa ← if instRead then physAddr instTLB va .EXEC else physAddr dataTLB va .READ
  let ptr ← lift ((← get).getMemPtr n pa)
  return (← get).readMem n ptr

/-- `store<T>` for an `n`-byte type. -/
def store {n : ℕ} (va : U32) (data : BitVec (8 * n)) : EStateM Stop MMU Unit := do
  let pa ← physAddr dataTLB va .WRITE
  let ptr ← lift ((← get).getMemPtr n pa)
  modify fun mmu ↦ mmu.writeMem ptr data

theorem getMemPtr_setWidth (mmu : MMU) (n : ℕ) (va : U32) : mmu.getMemPtr n (va.setWidth 64) =
    if mmu.pmem_size_ ≤ va.toNat + n then .error (.simException "Address is out of memory")
    else .ok va.toNat := by
  have h : (va.setWidth 64).setWidth 32 = va := by
    rw [BitVec.setWidth_setWidth_of_le va (by decide), BitVec.setWidth_eq]
  rw [getMemPtr, h]

end MMU

end RiscvSim
