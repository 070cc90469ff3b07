import LosTacOS.Os.Tarfs
import Mathlib

/-! The system calls that only ask: about paths, about open descriptors, about readiness. -/
namespace LosTacOS.Os

/-- What `sys_stat` and `sys_fstat` report of an object; the other fields are constants. -/
structure Stat where
  /-- the address of the node, or else of the descriptor -/
  ino : Nat ⊕ (Nat × Fin maxFds)
  directory : Bool
  size : Nat

structure PollSet where
  pollin : Bool
  pollout : Bool
  pollhup : Bool
  pollnval : Bool
deriving DecidableEq

def PollSet.none : PollSet := ⟨false, false, false, false⟩

namespace Kernel

variable (env : Env)

def nodeSize (k : Kernel) (n : Nat) : Nat :=
  ((k.node n).file.map fun f => (k.files.cell f).size).getD 0

def sysAccess (k : Kernel) (path : List Char) : Option (Int × Kernel) := do
  let path ← k.absPath env path
  let (node, k) ← k.find env path
  some (if node.isSome then 0 else -1, k)

def sysStat (k : Kernel) (path : List Char) : Option (Option Stat × Kernel) := do
  let path ← k.absPath env path
  let (node, k) ← k.find env path
  some (node.map fun n => ⟨.inl n, (k.node n).directory, k.nodeSize n⟩, k)

def sysFstat (k : Kernel) (fd : Int) : Option Stat :=
  (k.openFd fd).map fun (p, i) =>
    match (k.entry p i).node with
    | some n => ⟨.inl n, (k.node n).directory, k.nodeSize n⟩
    | none => ⟨.inr (p, i), false, 0⟩

/-- What `sys_poll` finds at a pipe, and how often it counts it as ready. -/
def pollPipe (q : Pipe) (readable writable : Bool) (events : PollSet) : PollSet × Nat :=
  let data := decide (q.readPos < q.writePos)
  let pollin := readable && data && events.pollin
  let pollhup := readable && !data && decide (q.writers ≤ 0)
  let pollout := writable && decide (q.writePos < 4096) && events.pollout
  (⟨pollin, pollout, pollhup, false⟩, pollin.toNat + pollhup.toNat + pollout.toNat)

/-- One descriptor in a pass of `sys_poll`. A pipe that is null is read through. -/
def pollFd (k : Kernel) (stdinLen : Nat) (fd : Int) (events : PollSet) : Option (PollSet × Nat) :=
  if fd = 0 then
    let pollin := events.pollin && decide (0 < stdinLen)
    some ({ PollSet.none with pollin }, pollin.toNat)
  else if fd = 1 ∨ fd = 2 then some ({ PollSet.none with pollout := events.pollout }, events.pollout.toNat)
  else
    match k.openFd fd with
    | none => some ({ PollSet.none with pollnval := true }, 1)
    | some (p, i) =>
      let e := k.entry p i
      if e.type = .pipe then
        e.pipe.map fun j => pollPipe (k.pipes j) e.readable e.writable events
      else some ({ PollSet.none with pollin := events.pollin, pollout := events.pollout }, 1)

/-- `sys_poll` in a state in which it looks; it goes on waiting while nothing is ready and the time
is not over. -/
def sysPoll (k : Kernel) (stdinLen : Nat) (pfds : List (Int × PollSet)) (timeout : Int)
    (expired : Bool) : Option (Int × List PollSet) := do
  let found ← pfds.mapM fun x => k.pollFd stdinLen x.1 x.2
  let ready := (found.map Prod.snd).sum
  if pfds = [] ∨ 0 < ready ∨ timeout = 0 ∨ (0 < timeout ∧ expired) then some (ready, found.map Prod.fst)
  else none

end Kernel

end LosTacOS.Os
