import LosTacOS.Lib.ByteMemory

/-! The kernel heap of mm/heap.cpp over byte memory: `init`, `kmalloc` and `kfree`
as the code runs them, with every load and store of a header or footer logged. -/
namespace LosTacOS.Heap
open ByteMemory

abbrev heapStart : Nat := 0x1000000
abbrev heapSize : Nat := 16 * 1024 * 1024
/-- `size_t size; bool free; Block *next;` under `alignas(16)`. -/
abbrev sizeofBlock : Nat := 32

def wrap (x : Nat) : Nat := x % 2^64

/-- Memory with the allocator's two static pointers; `touched` lists the (address, length)
of every access the allocator has made to memory. -/
structure HeapState where
  mem : Mem
  heapHead : Nat
  allocCursor : Nat
  heapInitialized : Bool
  touched : List (Nat × Nat)

/-- Allocator code: state passing; `none` is a loop that did not end. -/
abbrev HeapM := StateT HeapState Option

def HeapState.touch (h : HeapState) (a n : Nat) : HeapState := { h with touched := (a, n) :: h.touched }

def HeapState.put (h : HeapState) (a n v : Nat) : HeapState :=
  { h with mem := storeLE h.mem a n v, touched := (a, n) :: h.touched }

def load (a n : Nat) : HeapM Nat := fun h => some (loadLE h.mem a n, h.touch a n)
def store (a n v : Nat) : HeapM Unit := fun h => some ((), h.put a n v)

def getSize (b : Nat) : HeapM Nat := load b 8
def setSize (b v : Nat) : HeapM Unit := store b 8 v
def getFree (b : Nat) : HeapM Bool := do return (← load (b + 8) 1) != 0
def setFree (b : Nat) (f : Bool) : HeapM Unit := store (b + 8) 1 (if f then 1 else 0)
def getNext (b : Nat) : HeapM Nat := load (b + 16) 8
def setNext (b p : Nat) : HeapM Unit := store (b + 16) 8 p

def align (size : Nat) : Nat := wrap (size + 15) / 16 * 16

def footer (b : Nat) : HeapM Nat := do
  return wrap (b + sizeofBlock + (← getSize b) - 8)

def setFooter (b : Nat) : HeapM Unit := do
  let p ← footer b
  store p 8 (← getSize b)

def prevBlock (b : Nat) : HeapM Nat :=
  if b ≤ heapStart then return 0
  else do
    let pf ← load (b - 8) 8
    return wrap (b - sizeofBlock + (2^64 - pf))

def nextBlock (b : Nat) : HeapM Nat := do
  let e := wrap (b + sizeofBlock + (← getSize b))
  return if heapStart + heapSize ≤ e then 0 else e

def setCursor (b : Nat) : HeapM Unit := modify fun h => { h with allocCursor := b }

def init : HeapM Unit := do
  if (← get).heapInitialized then return
  modify fun h => { h with heapHead := heapStart }
  setSize heapStart (heapSize - sizeofBlock)
  setFree heapStart true
  setNext heapStart 0
  setFooter heapStart
  setCursor heapStart
  modify fun h => { h with heapInitialized := true }

def splitBlock (curr size : Nat) : HeapM Unit := do
  let newBlock := wrap (curr + sizeofBlock + size)
  setSize newBlock (wrap ((← getSize curr) + 2^64 - size - sizeofBlock))
  setFree newBlock true
  setNext newBlock (← getNext curr)
  setFooter newBlock
  setNext curr newBlock
  setSize curr size
  setFooter curr

def takeBlock (curr size : Nat) : HeapM Nat := do
  if wrap (size + sizeofBlock + 16) ≤ (← getSize curr) then
    splitBlock curr size
  setFree curr false
  setCursor curr
  return wrap (curr + sizeofBlock)

def fitsAt (curr size : Nat) : HeapM Bool := do
  if ← getFree curr then return size ≤ (← getSize curr) else return false

def kmallocLoop (size start : Nat) : Nat → Nat → HeapM Nat
  | 0, _ => failure
  | fuel+1, curr => do
    if ← fitsAt curr size then takeBlock curr size
    else
      let nxt ← getNext curr
      let h ← get
      let curr := if nxt = 0 then h.heapHead else nxt
      if curr = start then return 0 else kmallocLoop size start fuel curr

abbrev listFuel : Nat := heapSize

def kmalloc (size : Nat) : HeapM Nat := do
  let size := align size
  let h ← get
  let curr := if h.allocCursor = 0 then h.heapHead else h.allocCursor
  kmallocLoop size curr listFuel curr

/-- `while (tmp) { if (tmp == block) break; tmp = tmp->next; }`, which the code guards by a test
that `tmp` is not null to begin with. -/
def walkList (block : Nat) : Nat → Nat → HeapM Unit
  | 0, _ => failure
  | fuel+1, tmp =>
    if tmp = 0 ∨ tmp = block then return
    else do walkList block fuel (← getNext tmp)

/-- Searches from `tmp` for the block whose `next` is `block`; `prev` when there is none. -/
def searchPrev (block prev : Nat) : Nat → Nat → HeapM Nat
  | 0, _ => failure
  | fuel+1, tmp =>
    if tmp = 0 then return prev
    else do
      let nxt ← getNext tmp
      if nxt = block then return tmp else searchPrev block prev fuel nxt

def freeAt (b : Nat) : HeapM Bool := if b = 0 then return false else getFree b

/-- `b->size += sizeof(Block) + n->size; b->next = n->next; *footer(b) = b->size` -/
def absorb (b n : Nat) : HeapM Unit := do
  setSize b (wrap ((← getSize b) + sizeofBlock + (← getSize n)))
  setNext b (← getNext n)
  setFooter b

def mergeNext (block : Nat) : HeapM Unit := do
  let nxt ← nextBlock block
  if ← freeAt nxt then
    if nxt < heapStart + heapSize then
      walkList block listFuel (← getNext nxt)
      absorb block nxt
      if (← get).allocCursor = nxt then setCursor block

def mergePrev (block : Nat) : HeapM Unit := do
  let prev ← prevBlock block
  if ← freeAt prev then
    if prev ≠ block then
      let prev ← if (← getNext prev) ≠ block then searchPrev block prev listFuel (← get).heapHead
        else pure prev
      if ← getFree prev then
        if (← getNext prev) = block then
          absorb prev block
          if (← get).allocCursor = block then setCursor prev

def kfree (ptr : Nat) : HeapM Unit := do
  if ptr = 0 then return
  if ptr < heapStart + sizeofBlock ∨ heapStart + heapSize ≤ ptr then return
  let block := ptr - sizeofBlock
  if ← getFree block then return
  setFree block true
  let cursor := (← get).allocCursor
  if cursor ≠ 0 ∧ block < cursor then setCursor block
  mergeNext block
  mergePrev block

end LosTacOS.Heap
