import Mathlib
import LosTacOS.Arch.Stubs
import LosTacOS.Os.Exiting

/-! The switch from one task to another, from the interrupt of the one to the `iretq` into the
other. A task that does not run is words on its stack, and `regs` points to them. -/
namespace LosTacOS.Arch

open StackMachine
open Os (Kernel)

/-- One of the bytes of the stack that ends below `top`. -/
def InStack (top a : UInt64) : Prop := top.toNat ≤ a.toNat + 8192 ∧ a.toNat < top.toNat

/-- The registers of a program lie at `a`, on the stack that ends below `top`. -/
def Framed (m : Mem) (top a : UInt64) (x : Context) : Prop :=
  (∃ v e, Holds m a (x.words v e)) ∧ ∀ b, Among a 22 b → InStack top b

/-- `tasks` lists the tasks from `head` on, and `top` is the end of the stack of a task. `history`
says what the tasks were interrupted with, newest first; a new task counts as interrupted with what
it is to start with. -/
structure System where
  cpu : Cpu
  kernel : Kernel
  tasks : List Nat
  top : Nat → UInt64
  history : List (Nat × Context)

namespace System

variable {env : Os.Env} {calls : Callee → Cpu → Cpu} {m m' : System} {code : Int} {t : Nat}
  {born : List (Nat × Context)}

def frame (m : System) (t : Nat) : UInt64 := UInt64.ofNat (m.kernel.task t).regs

def Parked (m : System) (t : Nat) (x : Context) : Prop := Framed m.cpu.mem (m.top t) (m.frame t) x

structure Sound (m : System) : Prop where
  list : m.kernel.TaskList m.tasks
  apart : ∀ t u, t ≠ u → t = m.kernel.current ∨ t ∈ m.tasks → u ∈ m.tasks →
    ∀ a, InStack (m.top t) a → ¬ InStack (m.top u) a
  room : ∀ t ∈ m.tasks, 8192 ≤ (m.top t).toNat
  kernelTask : m.kernel.current ∉ m.tasks → m.cpu.user = false
  rsp0 : m.kernel.current ∈ m.tasks → m.cpu.rsp0 = m.top m.kernel.current
  parked : ∀ t ∈ m.tasks, t ≠ m.kernel.current → (m.kernel.task t).state ≠ .dead →
    ∃ x, m.history.lookup t = some x ∧ m.Parked t x

def atTimer (m : System) : Cpu :=
  { m.cpu.interrupt with
    toCpu := { m.cpu.entered 32 with
      reg := Function.update (m.cpu.entered 32).reg .rdi (m.cpu.entered 32).sp } }

/-- The scheduler goes on with another task: `k` is the kernel and `old` the registers that it is
called with, and `c` the processor behind it, with the stack pointer at what it returns. -/
structure Switches (env : Os.Env) (m : System) (k : Kernel) (old : Nat) (c : Cpu) (m' : System) :
    Prop where
  fuel : m.tasks.length ≤ env.fuel
  ready : ∃ t ∈ m.tasks, k.ready t = true
  schedule : ∃ r, k.schedule env old = some (r, m'.kernel) ∧ c.sp = UInt64.ofNat r
  rsp0 : c.rsp0 = m.top m'.kernel.current
  tasks : m'.tasks = m.tasks.filter k.survives
  top : m'.top = m.top

/-- The timer interrupts while some task is ready. In ring 0 the stack has room for the registers.
The handler works below them and leaves the stacks of the other tasks as they are, but for those of
dead tasks, which are freed. -/
structure Ticks (env : Os.Env) (calls : Callee → Cpu → Cpu) (m m' : System) : Prop where
  room : m.cpu.user = false → ∀ a, Among (m.cpu.entered 32).sp 22 a →
    InStack (m.top m.kernel.current) a
  keeps : ∀ a, Among (m.cpu.entered 32).sp 22 a ∨ (∃ t ∈ m.tasks, t ≠ m.kernel.current ∧
    (m.kernel.task t).state ≠ .dead ∧ InStack (m.top t) a) →
      (calls .timerIrq m.atTimer).mem a = m.atTimer.mem a
  switches : Switches env m m.kernel (m.cpu.entered 32).sp.toNat
    { calls .timerIrq m.atTimer with sp := (calls .timerIrq m.atTimer).reg .rax } m'
  cpu : m'.cpu = run calls irq0 m.cpu.interrupt
  history : m'.history = (m.kernel.current, m.cpu.context) :: m.history

/-- The task that runs ends, and `c` is the processor at `exec_enter`. -/
structure Exits (env : Os.Env) (calls : Callee → Cpu → Cpu) (m : System) (code : Int) (c : Cpu)
    (m' : System) : Prop where
  keeps : ∀ t ∈ m.tasks, t ≠ m.kernel.current → (m.kernel.task t).state ≠ .dead →
    ∀ a, InStack (m.top t) a → c.mem a = m.cpu.mem a
  switches : Switches env m (m.kernel.leave code)
    ((m.kernel.leave code).task m.kernel.current).regs { c with sp := c.reg .rdi } m'
  cpu : m'.cpu = run calls execEnter c
  history : m'.history = m.history

/-- The task that runs, and the kernel on its behalf, do whatever they like with their registers and
their memory, but leave the stacks of the other tasks as they are. The new tasks of the list are
`born`, each with its registers on a stack of its own. -/
structure Works (m m' : System) (born : List (Nat × Context)) : Prop where
  list : m'.kernel.TaskList m'.tasks
  current : m'.kernel.current = m.kernel.current
  apart : ∀ t u, t ≠ u → t = m'.kernel.current ∨ t ∈ m'.tasks → u ∈ m'.tasks →
    ∀ a, InStack (m'.top t) a → ¬ InStack (m'.top u) a
  room : ∀ t ∈ m'.tasks, 8192 ≤ (m'.top t).toNat
  kernelTask : m'.kernel.current ∉ m'.tasks → m'.cpu.user = false
  rsp0 : m'.cpu.rsp0 = m.cpu.rsp0
  top : m'.top m.kernel.current = m.top m.kernel.current
  new : ∀ t ∈ m'.tasks, t ≠ m.kernel.current → ∀ x, born.lookup t = some x → m'.Parked t x
  old : ∀ t ∈ m'.tasks, t ≠ m.kernel.current → born.lookup t = none →
    t ∈ m.tasks ∧ (m'.kernel.task t).regs = (m.kernel.task t).regs ∧ m'.top t = m.top t ∧
      ((m'.kernel.task t).state ≠ .dead → (m.kernel.task t).state ≠ .dead) ∧
      ∀ a, InStack (m.top t) a → m'.cpu.mem a = m.cpu.mem a
  history : m'.history = born ++ m.history

inductive Step : System → System → Prop
  | tick {env : Os.Env} {calls : Callee → Cpu → Cpu} {m m' : System} (h : Ticks env calls m m') :
    Step m m'
  | exit {env : Os.Env} {calls : Callee → Cpu → Cpu} {m : System} {code : Int} {c : Cpu}
    {m' : System} (h : Exits env calls m code c m') : Step m m'
  | work {m m' : System} {born : List (Nat × Context)} (h : Works m m' born) : Step m m'

section entry

theorem aligned_toNat (b : UInt64) : (b &&& ~~~15).toNat = b.toNat / 16 * 16 := by
  have hmask : (~~~15 : UInt64).toNat = (2 ^ 60 - 1) <<< 4 := rfl
  have hshift : b.toNat / 16 * 16 = (b.toNat >>> 4) <<< 4 := by
    rw [Nat.shiftRight_eq_div_pow, Nat.shiftLeft_eq]
  rw [UInt64.toNat_and, hmask, hshift]
  apply Nat.eq_of_testBit_eq
  intro i
  rw [Nat.testBit_and, Nat.testBit_shiftLeft, Nat.testBit_shiftLeft, Nat.testBit_shiftRight,
    Nat.testBit_two_pow_sub_one]
  by_cases hi : 4 ≤ i
  · rw [Nat.add_sub_cancel' hi]
    by_cases hhigh : i < 64
    · simp [hi, show i - 4 < 60 by omega]
    · have hzero : b.toNat.testBit i = false :=
        Nat.testBit_lt_two_pow (b.toNat_lt.trans_le (Nat.pow_le_pow_right (by decide) (by omega)))
      simp [hzero]
  · simp [hi]

/-- In ring 3 the registers are pushed at the end of the task's stack. -/
theorem entered_inStack {vector top : UInt64} {c : Cpu} (hu : c.user = true) (hr : c.rsp0 = top)
    (ht : 8192 ≤ top.toNat) {a : UInt64} (ha : Among (c.entered vector).sp 22 a) :
    InStack top a := by
  obtain ⟨i, hi, rfl⟩ := ha
  have hsp := congrArg UInt64.toNat (entered_sp vector c)
  have hentry : c.entryStack.toNat = top.toNat / 16 * 16 := by
    rw [Cpu.entryStack, if_pos hu, hr, aligned_toNat]
  have htop := top.toNat_lt
  have hlow := (c.entered vector).sp.toNat_lt
  simp only [hentry, UInt64.toNat_add, UInt64.reduceToNat] at hsp
  simp only [InStack, UInt64.toNat_add, UInt64.toNat_mul, UInt64.toNat_ofNat', UInt64.reduceToNat]
  omega

end entry

section schedule

structure Chosen (k : Kernel) (l : List Nat) (old r : Nat) (k' : Kernel) : Prop where
  list : k'.TaskList (l.filter k.survives)
  mem : k'.current ∈ l.filter k.survives
  ready : k.ready k'.current = true
  result : r = (k'.task k'.current).regs
  regs : ∀ t, (k'.task t).regs = if t = k.current then old else (k.task t).regs
  alive : ∀ t, (k'.task t).state ≠ .dead → t = k'.current ∨ (k.task t).state ≠ .dead

theorem chosen {k k' : Kernel} {l : List Nat} {old r : Nat} (hl : k.TaskList l)
    (hf : l.length ≤ env.fuel) (hr : ∃ t ∈ l, k.ready t = true)
    (hs : k.schedule env old = some (r, k')) : Chosen k l old r k' := by
  obtain ⟨_, hback, -⟩ := Option.bind_eq_some_iff.mp hs
  obtain ⟨k1, hl1, hreap, hs'⟩ := hl.schedule hf (hl.queued.reapsBack hback) old
  obtain ⟨u, hu, hru⟩ := hr
  obtain ⟨x, -, -, hx, -, -, hrx⟩ := Kernel.choice_of_ready (k := k) hl1.nodup
    ⟨u, List.mem_filter.mpr ⟨hu, Kernel.ready_survives hru⟩, hru⟩
  rw [hx] at hs'
  have hmem := Kernel.choice_mem hl1.nodup hx
  have hlist : Kernel.TaskList ((k1.suspend old).resume old (some x)).2 (l.filter k.survives) := by
    apply (hl1.suspend old).resume old
    intro y hy
    cases hy
    exact hmem
  have hresult := Kernel.resume_regs k1 old (some x)
  have hstate := hreap.resume_state old x
  have hregs (t : Nat) : (((k1.suspend old).resume old (some x)).2.task t).regs =
      if t = k.current then old else (k.task t).regs := by
    have hbody := Os.Task.of_body Os.Task.regs (fun _ => rfl) (hreap.body t)
    change (((k1.suspend old).run x).task t).regs = _
    rw [Kernel.run_task, apply_ite Os.Task.regs, ite_self, Kernel.suspend_task, hreap.current,
      apply_ite Os.Task.regs, hbody]
  have hcurrent : ((k1.suspend old).resume old (some x)).2.current = x := rfl
  obtain ⟨rfl, rfl⟩ := Prod.mk.inj (Option.some.inj (hs'.symm.trans hs))
  refine ⟨hlist, hcurrent ▸ hmem, hcurrent ▸ hrx, hresult, hregs, ?_⟩
  intro t ht
  have hst : (((k1.suspend old).run x).task t).state = _ := hstate t
  rw [hst] at ht
  by_cases htx : t = x
  · exact Or.inl (htx.trans hcurrent.symm)
  · rw [if_neg htx] at ht
    right
    by_cases hrun : t = k.current ∧ (k.task t).state = .running
    · rw [hrun.2]
      decide
    · rwa [if_neg hrun] at ht

theorem ready_alive {k : Kernel} (h : k.ready t = true) : (k.task t).state ≠ .dead := by
  intro hd
  simp [Kernel.ready, hd] at h

end schedule

section switch

theorem Framed.keep {s s' : Mem} {top a : UInt64} {x : Context} (h : Framed s top a x)
    (hs : ∀ b, InStack top b → s' b = s b) : Framed s' top a x := by
  obtain ⟨⟨v, e, hwords⟩, hin⟩ := h
  exact ⟨⟨v, e, hwords.congr fun b hb => hs b (hin b hb)⟩, hin⟩

/-- Whichever task is chosen, it has its registers on its stack, and the stub pops those. -/
theorem Switches.resumes {k : Kernel} {old : Nat} {c : Cpu} (hs : Switches env m k old c m')
    (hm : m.Sound) (hl : k.TaskList m.tasks)
    (hcpu : m'.cpu = run calls leave c)
    (hframed : ∀ t ∈ m.tasks, (k.task t).state ≠ .dead → ∃ x, m'.history.lookup t = some x ∧
      Framed c.mem (m.top t) (UInt64.ofNat (if t = k.current then old else (k.task t).regs)) x) :
    m'.Sound ∧ m'.history.lookup m'.kernel.current = some m'.cpu.context := by
  obtain ⟨r, hsched, hsp⟩ := hs.schedule
  have hch := chosen hl hs.fuel hs.ready hsched
  have hin (t : Nat) (ht : t ∈ m'.tasks) : t ∈ m.tasks := by
    rw [hs.tasks] at ht
    exact List.mem_of_mem_filter ht
  have hmem : m'.kernel.current ∈ m'.tasks := by
    rw [hs.tasks]
    exact hch.mem
  obtain ⟨x, hx, ⟨v, e, hwords⟩, -⟩ := hframed _ (hin _ hmem) (ready_alive hch.ready)
  rw [← hch.regs, ← hch.result, ← hsp] at hwords
  obtain ⟨hcontext, hkept, hrsp0⟩ := @run_leave calls c x v e hwords
  rw [← hcpu] at hcontext hkept hrsp0
  refine ⟨⟨?_, ?_, ?_, fun h => absurd hmem h, ?_, ?_⟩, ?_⟩
  · rw [hs.tasks]
    exact hch.list
  · intro t u htu ht hu a hat hau
    rw [hs.top] at hat hau
    have ht' : t ∈ m.tasks := by
      cases ht with
      | inl h => exact h ▸ hin _ hmem
      | inr h => exact hin t h
    exact hm.apart t u htu (Or.inr ht') (hin u hu) a hat hau
  · intro t ht
    rw [hs.top]
    exact hm.room t (hin t ht)
  · intro _
    rw [hs.top, hrsp0]
    exact hs.rsp0
  · intro t ht hne hdead
    have halive := (hch.alive t hdead).resolve_left hne
    obtain ⟨y, hy, hframe⟩ := hframed t (hin t ht) halive
    refine ⟨y, hy, ?_⟩
    rw [← hch.regs] at hframe
    rw [Parked, frame, hs.top, hkept]
    exact hframe
  · rw [hx, hcontext]

theorem Ticks.resumes (ht : Ticks env calls m m') (hm : m.Sound) :
    m'.Sound ∧ m'.history.lookup m'.kernel.current = some m'.cpu.context := by
  have hpushed (a : UInt64) (ha : Among (m.cpu.entered 32).sp 22 a) :
      InStack (m.top m.kernel.current) a := by
    cases hu : m.cpu.user with
    | false => exact ht.room hu a ha
    | true =>
      have hcur : m.kernel.current ∈ m.tasks := by
        by_contra hn
        rw [hm.kernelTask hn] at hu
        cases hu
      exact entered_inStack hu (hm.rsp0 hcur) (hm.room _ hcur) ha
  have hcpu : m'.cpu = run calls leave
      { calls .timerIrq m.atTimer with sp := (calls .timerIrq m.atTimer).reg .rax } := by
    rw [ht.cpu, irq0, irq, run_append, run_append, run_enter 32 rfl]
    rfl
  apply ht.switches.resumes hm hm.list hcpu
  intro t htm halive
  rw [ht.history]
  by_cases hcur : t = m.kernel.current
  · refine ⟨m.cpu.context, ?_, ⟨32, 0, ?_⟩, ?_⟩
    · rw [hcur, List.lookup_cons_self]
    · rw [if_pos hcur, UInt64.ofNat_toNat]
      apply (entered_holds 32 m.cpu).congr
      intro a ha
      exact ht.keeps a (Or.inl ha)
    · rw [if_pos hcur, UInt64.ofNat_toNat, hcur]
      exact hpushed
  · obtain ⟨x, hx, hparked⟩ := hm.parked t htm hcur halive
    refine ⟨x, ?_, ?_⟩
    · rw [List.lookup_cons, beq_false_of_ne hcur]
      exact hx
    · rw [if_neg hcur]
      apply Framed.keep hparked
      intro a ha
      have hout : ¬ Among (m.cpu.entered 32).sp 22 a := fun h =>
        hm.apart _ t (Ne.symm hcur) (Or.inl rfl) htm a (hpushed a h) ha
      calc (calls .timerIrq m.atTimer).mem a
          = (m.cpu.entered 32).mem a := ht.keeps a (Or.inr ⟨t, htm, hcur, halive, ha⟩)
        _ = m.cpu.mem a := entered_frame hout

theorem Exits.resumes {c : Cpu} (he : Exits env calls m code c m') (hm : m.Sound) :
    m'.Sound ∧ m'.history.lookup m'.kernel.current = some m'.cpu.context := by
  have hcurrent := Kernel.leave_current m.kernel code
  have hcpu : m'.cpu = run calls leave { c with sp := c.reg .rdi } := by
    rw [he.cpu, execEnter, run_append]
    rfl
  apply he.switches.resumes hm (hm.list.leave code) hcpu
  intro t ht halive
  have hne : t ≠ m.kernel.current := by
    rintro rfl
    exact halive (Kernel.leave_dead m.kernel code)
  obtain ⟨exitCode, state, htask, hstate⟩ := Kernel.leave_task m.kernel code t
  have halive' : (m.kernel.task t).state ≠ .dead := by
    intro hd
    apply halive
    rw [htask]
    exact (hstate hne).mpr hd
  obtain ⟨x, hx, hparked⟩ := hm.parked t ht hne halive'
  refine ⟨x, by rw [he.history, hx], ?_⟩
  rw [hcurrent, if_neg hne, htask]
  apply Framed.keep hparked
  exact he.keeps t ht hne halive'

end switch

section runs

theorem Works.sound (hw : Works m m' born) (hm : m.Sound) : m'.Sound := by
  have hcur : m'.kernel.current ∈ m'.tasks → m.kernel.current ∈ m.tasks := by
    intro h
    apply hm.list.current.resolve_left
    intro hz
    rw [hw.current, hz] at h
    exact hw.list.idle h
  refine ⟨hw.list, hw.apart, hw.room, hw.kernelTask, ?_, ?_⟩
  · intro h
    rw [hw.rsp0, hw.current, hw.top]
    exact hm.rsp0 (hcur h)
  · intro t ht hne halive
    rw [hw.current] at hne
    rw [hw.history, List.lookup_append]
    cases hb : born.lookup t with
    | some x => exact ⟨x, rfl, hw.new t ht hne x hb⟩
    | none =>
      obtain ⟨htm, hregs, htop, hdead, hkept⟩ := hw.old t ht hne hb
      obtain ⟨x, hx, hparked⟩ := hm.parked t htm hne (hdead halive)
      refine ⟨x, hx, ?_⟩
      rw [Parked, frame, hregs, htop]
      exact Framed.keep hparked hkept

theorem Step.sound (h : Step m m') (hm : m.Sound) : m'.Sound := by
  cases h with
  | tick h => exact (h.resumes hm).1
  | exit h => exact (h.resumes hm).1
  | work h => exact h.sound hm

theorem sound_of_steps (h : Relation.ReflTransGen Step m m') (hm : m.Sound) : m'.Sound := by
  induction h with
  | refl => exact hm
  | tail _ hstep ih => exact hstep.sound ih

inductive Switched : System → System → Prop
  | tick {env : Os.Env} {calls : Callee → Cpu → Cpu} {m m' : System} (h : Ticks env calls m m') :
    Switched m m'
  | exit {env : Os.Env} {calls : Callee → Cpu → Cpu} {m : System} {code : Int} {c : Cpu}
    {m' : System} (h : Exits env calls m code c m') : Switched m m'

/-- However interrupts, ends of tasks and their own work follow each other, the task that is gone on
with has in all its registers what it was last interrupted with. -/
theorem goes_on (hm : m.Sound) {m1 : System} (hr : Relation.ReflTransGen Step m m1)
    (hs : Switched m1 m') : m'.history.lookup m'.kernel.current = some m'.cpu.context := by
  have hm1 := sound_of_steps hr hm
  cases hs with
  | tick h => exact (h.resumes hm1).2
  | exit h => exact (h.resumes hm1).2

def newProgram : Context where
  reg _ := 0
  rip := 0x400000
  cs := 0x1b
  rflags := 0x202
  rsp := 0x7fffffffe0
  ss := 0x23

/-- The boot code runs on a stack that ends at 65536, and the registers of one new task lie at the
end of the stack below 16384. -/
def booted : System where
  cpu :=
    { reg := fun _ => 0
      sp := 65536
      mem := fun a => (newProgram.words 0 0).getD ((a - 16208) / 8).toNat 0
      rip := 0
      cs := 8
      rflags := 0x202
      ss := 0
      rsp0 := 0 }
  kernel :=
    { Kernel.boot with
      tasks :=
        ⟨Function.update Kernel.boot.tasks.cell 1 { Os.Task.zero with regs := 16208 }, {0, 1}⟩
      head := some 1
      tail := some 1 }
  tasks := [1]
  top t := if t = 1 then 16384 else 65536
  history := [(1, newProgram)]

theorem booted_sound : booted.Sound := by
  refine ⟨⟨⟨rfl, rfl⟩, by decide, rfl, by decide, rfl, Or.inl rfl⟩, ?_, by decide, fun _ => rfl,
    fun h => absurd h (by decide), ?_⟩
  · intro t u htu _ hu a hat hau
    obtain rfl := List.mem_singleton.mp hu
    have htop : booted.top t = 65536 := if_neg htu
    have htop' : booted.top 1 = 16384 := rfl
    rw [htop] at hat
    rw [htop'] at hau
    simp only [InStack, UInt64.reduceToNat] at hat hau
    omega
  · intro t ht _ _
    obtain rfl := List.mem_singleton.mp ht
    refine ⟨newProgram, rfl, ⟨0, 0, ?_⟩, ?_⟩
    · have hwords : ∀ i < 22, booted.cpu.mem (booted.frame 1 + 8 * UInt64.ofNat i) =
          (newProgram.words 0 0).getD i 0 := by
        decide
      exact hwords
    · rintro b ⟨i, hi, rfl⟩
      have hframe : booted.frame 1 = 16208 := rfl
      have htop : booted.top 1 = 16384 := rfl
      rw [hframe, htop]
      simp only [InStack, UInt64.toNat_add, UInt64.toNat_mul, UInt64.toNat_ofNat',
        UInt64.reduceToNat]
      omega

def firstSwitch : Callee → Cpu → Cpu
  | .timerIrq, c => { c with reg := Function.update c.reg .rax 16208, rsp0 := 16384 }
  | _, c => c

def switchedSystem : System where
  cpu := run firstSwitch irq0 booted.cpu.interrupt
  kernel := ((booted.kernel.suspend 65360).resume 65360 (some 1)).2
  tasks := [1]
  top := booted.top
  history := (0, booted.cpu.context) :: booted.history

theorem first_tick : Ticks Os.Kernel.freshEnv firstSwitch booted switchedSystem := by
  have hsp : (booted.cpu.entered 32).sp = 65360 := rfl
  refine ⟨?_, fun _ _ => rfl,
    ⟨by decide, ⟨1, List.mem_singleton_self 1, by decide⟩, ?_, rfl, rfl, rfl⟩, rfl, rfl⟩
  · rintro _ b ⟨i, hi, rfl⟩
    have htop : booted.top booted.kernel.current = 65536 := rfl
    rw [hsp, htop]
    simp only [InStack, UInt64.toNat_add, UInt64.toNat_mul, UInt64.toNat_ofNat',
      UInt64.reduceToNat]
    omega
  · rw [hsp]
    exact ⟨16208, rfl, rfl⟩

theorem booted_goes_on :
    (switchedSystem.cpu.rip, switchedSystem.cpu.sp) = (0x400000, 0x7fffffffe0) := by
  have h := goes_on booted_sound .refl (.tick first_tick)
  have hlookup : switchedSystem.history.lookup switchedSystem.kernel.current =
      some newProgram := rfl
  rw [hlookup] at h
  exact Prod.ext (congrArg Context.rip (Option.some.inj h)).symm
    (congrArg Context.rsp (Option.some.inj h)).symm

end runs

end System

end LosTacOS.Arch
