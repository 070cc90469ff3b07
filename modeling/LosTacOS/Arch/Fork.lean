import Mathlib
import LosTacOS.Arch.Switching
import LosTacOS.Os.Runs

/-! `fork` returns twice: to the caller, and in a new task on a copy of the caller's registers. -/
namespace LosTacOS.Arch

open StackMachine
open Os (Kernel)

def setCurrentRegs (k : Kernel) (r : Nat) : Kernel :=
  k.setTask k.current { k.task k.current with regs := r }

section clone

open Os.Kernel

variable {env : Os.Env} {k k1 k' : Kernel} {l : List Nat} {p c t u : Nat} {pid : Int}

/-- What `fork` makes of the tasks: a new one at the end of the list. -/
structure Forked (k : Kernel) (l : List Nat) (pid : Int) (u : Nat) (k' : Kernel) : Prop where
  new : u ∉ k.tasks.used
  list : k'.TaskList (l ++ [u])
  current : k'.current = k.current
  body : ∀ t, t ≠ u → (k'.task t).body = (k.task t).body
  pid : pid = (k'.task u).pid

theorem Forked.congr (h : Forked k1 l pid u k') (htasks : k1.tasks = k.tasks)
    (hcurrent : k1.current = k.current) : Forked k l pid u k' := by
  refine ⟨htasks ▸ h.new, h.list, h.current.trans hcurrent, ?_, h.pid⟩
  intro t ht
  rw [h.body t ht, task, task, htasks]

theorem startTask_forked {stack : Nat} {q : Option Nat} (hl : k.Listed l) (ht : t ∉ k.tasks.used)
    (hp : Unowned k l p) (hs : k.startTask t p stack q = some k') :
    Forked k l (k'.proc p).pid t k' := by
  have hl1 : Listed (k.setProc p { k.proc p with mainThread := some t }) l := hl.keep rfl
  unfold Kernel.startTask at hs
  obtain ⟨hlist, hrel⟩ := hl1.enlist (p := p) ht rfl (by simp) hp.used hp.ne hp.free hs
  obtain ⟨_, _, _, hrest⟩ := hrel.rest
  have hcur : k'.current = k.current := by
    rw [hrest]
    rfl
  have hprocs : k'.procs = (k.setProc p { k.proc p with mainThread := some t }).procs := by
    rw [hrest]
  have hproc : (k'.proc p).pid = (k.proc p).pid := by
    simp [proc, hprocs, setProc]
  have hbody (u : Nat) := hrel.body u
  simp only [task, Arena.alloc_cell] at hbody
  refine ⟨ht, hlist.toTaskList, hcur, ?_, ?_⟩
  · intro u hu
    rw [task, hbody u, if_neg hu]
    rfl
  · have hpid := Os.Task.of_body Os.Task.pid (fun _ => rfl) (hbody t)
    rw [if_pos rfl] at hpid
    rw [hproc, task, hpid]

theorem clone_forked (hl : k.Listed l) (h : k.clone env p = some (some c, k')) :
    ∃ u, Forked k l (k'.proc c).pid u k' := by
  cases clone_cases h with
  | inl hno => cases hno.1
  | inr hyes =>
    obtain ⟨k0, c', h0, hc, hcl⟩ := hyes
    cases hcl with
    | done hk ht hs =>
      obtain ⟨hl1, hu1⟩ := (hl.keep h0.taskSide).newProcess hc
      have hside := hk.taskSide.trans (inherit_taskSide (k0.newProcess c) p c)
      have htasks : (k0.newProcess c).tasks = k.tasks := congrArg Os.TaskSide.tasks h0.taskSide
      have hcurrent : (k0.newProcess c).current = k.current :=
        congrArg Os.TaskSide.current h0.taskSide
      have hforked := startTask_forked (hl1.keep hside) ht (hu1.keep hside) hs
      exact ⟨_, hforked.congr ((congrArg Os.TaskSide.tasks hside).trans htasks)
        ((congrArg Os.TaskSide.current hside).trans hcurrent)⟩

theorem sysFork_forked (hl : k.Listed l) (hf : k.sysFork env = some (pid, k')) (hp : pid ≠ -1) :
    ∃ u, Forked k l pid u k' := by
  unfold Kernel.sysFork at hf
  split at hf
  · cases hf
    exact absurd rfl hp
  · rename_i p hproc
    obtain ⟨⟨c, k1⟩, hc, hf⟩ := Option.bind_eq_some_iff.mp hf
    have hl0 : Listed (k.setProc p { k.proc p with mainThread := some k.current }) l := hl.keep rfl
    cases c with
    | none =>
      cases hf
      exact absurd rfl hp
    | some c =>
      cases hf
      obtain ⟨u, hu⟩ := clone_forked hl0 hc
      exact ⟨u, hu.congr rfl rfl⟩

end clone

namespace System

variable {env : Os.Env} {calls : Callee → Cpu → Cpu} {m m' : System} {pid : Int} {u : Nat}

def served (m : System) (calls : Callee → Cpu → Cpu) : Cpu :=
  calls .syscallHandler (atHandler calls m.cpu)

def childContext (m : System) : Context :=
  { m.cpu.context with reg := Function.update m.cpu.reg .rax 0 }

/-- The program that runs calls `fork`, and it succeeds. `clone` copies the registers that lie at
`regs` to a new stack, but for a zero in `rax`, and works on the stack below the caller's
registers. -/
structure Forks (env : Os.Env) (calls : Callee → Cpu → Cpu) (m : System) (pid : Int) (u : Nat)
    (m' : System) : Prop where
  user : m.cpu.user = true
  currentRegs : Returns (calls .setCurrentRegs) (atCurrentRegs m.cpu) (m.cpu.entered 128).sp 22
  handler : Returns (calls .syscallHandler) (atHandler calls m.cpu) (m.cpu.entered 128).sp 22
  fork : (setCurrentRegs m.kernel (m.cpu.entered 128).sp.toNat).sysFork env = some (pid, m'.kernel)
  succeeds : pid ≠ -1
  child : m'.kernel.tail = some u
  copied : ∀ i < 22, (m.served calls).mem (m'.frame u + 8 * UInt64.ofNat i) =
    if i = 14 then 0 else (m.served calls).mem (m'.frame m.kernel.current + 8 * UInt64.ofNat i)
  stack : ∀ a, Among (m'.frame u) 22 a → InStack (m'.top u) a
  room : 8192 ≤ (m'.top u).toNat
  apart : ∀ t, t = m.kernel.current ∨ t ∈ m.tasks →
    ∀ a, InStack (m.top t) a → ¬ InStack (m'.top u) a
  keeps : ∀ t ∈ m.tasks, t ≠ m.kernel.current →
    ∀ a, InStack (m.top t) a → (m.served calls).mem a = m.cpu.mem a
  rsp0 : (m.served calls).rsp0 = m.cpu.rsp0
  result : (m.served calls).reg .rax = UInt64.ofInt pid
  cpu : m'.cpu = run calls isr128 m.cpu.interrupt
  tasks : m'.tasks = m.tasks ++ [u]
  top : ∀ t, t ≠ u → m'.top t = m.top t
  history : m'.history = (u, m.childContext) :: m.history

section fork

variable (hf : Forks env calls m pid u m') (hm : m.Sound) (hl : m.kernel.Listed m.tasks)

include hf hl in
theorem Forks.forked :
    Forked (setCurrentRegs m.kernel (m.cpu.entered 128).sp.toNat) m.tasks pid u m'.kernel := by
  have hl' : (setCurrentRegs m.kernel (m.cpu.entered 128).sp.toNat).Listed m.tasks :=
    hl.setTask rfl rfl fun _ => rfl
  obtain ⟨u', hu⟩ := sysFork_forked hl' hf.fork hf.succeeds
  have htail := hu.list.tail
  rw [hf.child, List.getLast?_append, List.getLast?_singleton] at htail
  exact Option.some.inj htail ▸ hu

include hf hm in
theorem Forks.current_mem : m.kernel.current ∈ m.tasks := by
  by_contra hn
  have huser := hm.kernelTask hn
  rw [hf.user] at huser
  cases huser

include hf hm in
theorem Forks.own {a : UInt64} (ha : Among (m.cpu.entered 128).sp 22 a) :
    InStack (m.top m.kernel.current) a := by
  have hcur := hf.current_mem hm
  exact entered_inStack hf.user (hm.rsp0 hcur) (hm.room _ hcur) ha

include hf hm in
theorem Forks.mem {t : Nat} (ht : t = u ∨ t ∈ m.tasks ∧ t ≠ m.kernel.current ∧ t ≠ u) {a : UInt64}
    (ha : InStack (m'.top t) a) : m'.cpu.mem a = (m.served calls).mem a := by
  have hstored : InStack (m.top m.kernel.current) ((m.cpu.entered 128).sp + 112) :=
    hf.own hm ⟨14, by decide, rfl⟩
  have hne : a ≠ (m.cpu.entered 128).sp + 112 := by
    rintro rfl
    rcases ht with rfl | ⟨htm, hcur, hu⟩
    · exact hf.apart _ (Or.inl rfl) _ hstored ha
    · rw [hf.top t hu] at ha
      exact hm.apart _ t (Ne.symm hcur) (Or.inl rfl) htm _ hstored ha
  rw [hf.cpu, (isr128_context hf.currentRegs hf.handler).2.1]
  exact Function.update_of_ne hne _ _

include hf hl in
theorem Forks.new : u ∉ m.tasks ∧ u ≠ m.kernel.current := by
  have hu : u ∉ m.kernel.tasks.used := (hf.forked hl).new
  have hin : u ∉ m.tasks := fun h => hu ((hl.used u).mpr (Or.inr h))
  refine ⟨hin, ?_⟩
  rintro rfl
  exact hu ((hl.used _).mpr hl.current)

include hf hm hl in
/-- The child has on its stack what it is to go on with. -/
theorem Forks.parked : m'.Parked u m.childContext := by
  have hbody := (hf.forked hl).body m.kernel.current (hf.new hl).2.symm
  have hregs : m'.frame m.kernel.current = (m.cpu.entered 128).sp := by
    rw [frame, Os.Task.of_body Os.Task.regs (fun _ => rfl) hbody]
    simp [setCurrentRegs, Kernel.setTask, Kernel.task]
  have hwords : Holds (m.served calls).mem (m.cpu.entered 128).sp (m.cpu.context.words 128 0) :=
    (atHandler_words hf.currentRegs).2.2.congr hf.handler.keeps
  have hcopy : Holds (m.served calls).mem (m'.frame u) (m.childContext.words 128 0) := by
    intro i hi
    have hset : (m.cpu.context.words 128 0).set 14 0 = m.childContext.words 128 0 :=
      words_set_rax _ _
    rw [Context.words_length] at hi
    rw [hf.copied i hi, hregs, ← hset, List.getD_eq_getElem?_getD, List.getElem?_set]
    by_cases h14 : i = 14
    · subst h14
      simp
    · rw [if_neg h14, if_neg (Ne.symm h14), ← List.getD_eq_getElem?_getD]
      exact hwords i hi
  refine ⟨⟨128, 0, hcopy.congr ?_⟩, hf.stack⟩
  intro a ha
  exact hf.mem hm (Or.inl rfl) (hf.stack a ha)

include hf hm hl in
theorem Forks.works : Works m m' [(u, m.childContext)] := by
  have hforked := hf.forked hl
  obtain ⟨hin, hcur⟩ := hf.new hl
  have hcurrent : m'.kernel.current = m.kernel.current := hforked.current
  have hlist := hforked.list
  have hmem (t : Nat) : t ∈ m'.tasks ↔ t ∈ m.tasks ∨ t = u := by
    rw [hf.tasks, List.mem_append, List.mem_singleton]
  have hne {t : Nat} (ht : t = m.kernel.current ∨ t ∈ m.tasks) : t ≠ u := by
    rintro rfl
    exact ht.elim (fun h => hcur h) hin
  refine ⟨hf.tasks ▸ hlist, hcurrent, ?_, ?_, ?_, ?_, hf.top _ hcur.symm, ?_, ?_, hf.history⟩
  · intro t v htv ht hv a hat hav
    rw [hcurrent, hmem] at ht
    rw [hmem] at hv
    by_cases htu : t = u
    · have hvm : v ∈ m.tasks := hv.resolve_right fun h => htv (htu.trans h.symm)
      rw [htu] at hat
      rw [hf.top v (hne (Or.inr hvm))] at hav
      exact hf.apart v (Or.inr hvm) a hav hat
    · have ht' : t = m.kernel.current ∨ t ∈ m.tasks := by
        tauto
      rw [hf.top t htu] at hat
      by_cases hvu : v = u
      · rw [hvu] at hav
        exact hf.apart t ht' a hat hav
      · rw [hf.top v hvu] at hav
        exact hm.apart t v htv ht' (hv.resolve_right hvu) a hat hav
  · intro t ht
    by_cases htu : t = u
    · rw [htu]
      exact hf.room
    · rw [hf.top t htu]
      exact hm.room t (((hmem t).mp ht).resolve_right htu)
  · intro h
    rw [hcurrent, hmem] at h
    exact absurd (Or.inl (hf.current_mem hm)) h
  · rw [hf.cpu, (isr128_context hf.currentRegs hf.handler).2.2]
    exact hf.rsp0
  · intro t _ _ x hx
    rw [List.lookup_cons] at hx
    by_cases htu : t = u
    · rw [htu, beq_self_eq_true] at hx
      rw [htu, ← Option.some.inj hx]
      exact hf.parked hm hl
    · rw [beq_false_of_ne htu] at hx
      cases hx
  · intro t ht hne' hnone
    have htu : t ≠ u := by
      rintro rfl
      rw [List.lookup_cons_self] at hnone
      cases hnone
    have htm := ((hmem t).mp ht).resolve_right htu
    have hbody : (m'.kernel.task t).body = (m.kernel.task t).body := by
      rw [hforked.body t htu, setCurrentRegs, Kernel.task, Kernel.setTask, Arena.set_cell,
        if_neg hne']
      rfl
    refine ⟨htm, Os.Task.of_body Os.Task.regs (fun _ => rfl) hbody, hf.top t htu, ?_, ?_⟩
    · rw [Os.Kernel.state_of_body hbody]
      exact id
    · intro a ha
      have hkept := hf.keeps t htm hne' a ha
      rw [← hf.top t htu] at ha
      rw [hf.mem hm (Or.inr ⟨htm, hne', htu⟩) ha, hkept]

end fork

/-- The caller of `fork` goes on with the child's pid, and the child, when it is gone on with for the
first time, with the caller's registers and 0. -/
theorem fork_returns_twice (hm : m.Sound) (hl : m.kernel.Listed m.tasks)
    (hf : Forks env calls m pid u m') {m1 m2 : System} (hr : Relation.ReflTransGen Step m' m1)
    (hs : Switched m1 m2) (hu : m2.kernel.current = u) {h : List (Nat × Context)}
    (hh : m2.history = h ++ m'.history) (hfirst : ∀ x, (u, x) ∉ h) :
    pid = (m'.kernel.task u).pid ∧
      m'.cpu.context =
        { m.cpu.context with reg := Function.update m.cpu.reg .rax (UInt64.ofInt pid) } ∧
      m2.cpu.context = { m.cpu.context with reg := Function.update m.cpu.reg .rax 0 } := by
  refine ⟨(hf.forked hl).pid, ?_, ?_⟩
  · rw [hf.cpu, (isr128_context hf.currentRegs hf.handler).1, ← hf.result]
    rfl
  · have hlookup := goes_on ((hf.works hm hl).sound hm) hr hs
    have hnone : h.lookup u = none := by
      rw [List.lookup_eq_none_iff]
      rintro ⟨t, x⟩ hx
      rw [bne_iff_ne]
      rintro rfl
      exact hfirst x hx
    rw [hu, hh, hf.history, List.lookup_append, hnone, List.lookup_cons_self] at hlookup
    exact (Option.some.inj hlookup).symm

/-- A program of one task calls `fork`; its kernel stack ends at 16384. -/
def forking : System where
  cpu :=
    { reg := fun r => if r = .rbx then 7 else 0
      sp := 0x7fffffffe0
      mem := fun _ => 0
      rip := 0x400002
      cs := 0x1b
      rflags := 0x202
      ss := 0x23
      rsp0 := 16384 }
  kernel :=
    { Kernel.boot with
      tasks :=
        ⟨Function.update Kernel.boot.tasks.cell 1
          { Os.Task.zero with pid := 1, process := some 1, state := .running }, {0, 1}⟩
      procs := ⟨fun _ => { Os.Process.zero with pid := 1 }, {0, 1}⟩
      head := some 1
      tail := some 1
      current := 1
      pidCounter := 2 }
  tasks := [1]
  top _ := 16384
  history := []

theorem forking_sound : forking.Sound := by
  refine ⟨⟨⟨rfl, rfl⟩, by decide, rfl, by decide, rfl, Or.inr (by decide)⟩, ?_, by decide,
    fun h => absurd h (by decide), fun _ => rfl, ?_⟩
  · intro t u htu ht hu
    have ht1 : t = 1 := ht.elim id List.mem_singleton.mp
    exact absurd (ht1.trans (List.mem_singleton.mp hu).symm) htu
  · intro t ht hne
    exact absurd (List.mem_singleton.mp ht) hne

theorem forking_listed : forking.kernel.Listed forking.tasks := by
  refine ⟨forking_sound.list, ?_, rfl, by decide, ?_, ?_, ?_⟩
  · intro t
    simp [forking]
  · intro t ht
    obtain rfl := List.mem_singleton.mp ht
    exact ⟨1, by decide, by decide, rfl⟩
  · intro t ht v hv _
    exact (List.mem_singleton.mp ht).trans (List.mem_singleton.mp hv).symm
  · intro t ht _
    exact List.mem_singleton.mp ht

/-- The process and the task of the child are at 2, and its registers at 24400. -/
def forkEnv : Os.Env :=
  { Os.Kernel.freshEnv with malloc := fun n => some (if n < 2 then 2 else 24400) }

/-- The handlers of a kernel that copies the registers at 16208 to 24400, and switches to the child
when the timer interrupts. -/
def forkHandler : Callee → Cpu → Cpu
  | .syscallHandler, c =>
    { c with
      reg := Function.update c.reg .rax 2
      mem := fun a =>
        if Among 24400 22 a then if a = 24400 + 112 then 0 else c.mem (a - 24400 + 16208)
        else c.mem a }
  | .timerIrq, c => { c with reg := Function.update c.reg .rax 24400, rsp0 := 24576 }
  | _, c => c

def forkedSystem : System where
  cpu := run forkHandler isr128 forking.cpu.interrupt
  kernel := (((setCurrentRegs forking.kernel 16208).sysFork forkEnv).getD (0, forking.kernel)).2
  tasks := [1, 2]
  top t := if t = 2 then 24576 else 16384
  history := [(2, forking.childContext)]

set_option maxRecDepth 8000 in
theorem forking_kernel : (setCurrentRegs forking.kernel 16208).sysFork forkEnv =
    some (2, forkedSystem.kernel) ∧ forkedSystem.kernel.tail = some 2 ∧
    forkedSystem.frame 2 = 24400 ∧ forkedSystem.frame 1 = 16208 :=
  ⟨rfl, rfl, rfl, rfl⟩

theorem forking_forks : Forks forkEnv forkHandler forking 2 2 forkedSystem := by
  obtain ⟨hfork, htail, hchild, hparent⟩ := forking_kernel
  have hsp : (forking.cpu.entered 128).sp = 16208 := rfl
  have hcurrent : forkedSystem.frame forking.kernel.current = 16208 := hparent
  have hmem (a : UInt64) : (forking.served forkHandler).mem a =
      if Among 24400 22 a then
        if a = 24400 + 112 then 0 else (atHandler forkHandler forking.cpu).mem (a - 24400 + 16208)
      else (atHandler forkHandler forking.cpu).mem a := rfl
  have hfar {a : UInt64} (ha : Among 16208 22 a) : ¬ Among 24400 22 a := by
    obtain ⟨i, hi, rfl⟩ := ha
    rintro ⟨j, hj, he⟩
    have hnat := congrArg UInt64.toNat he
    simp only [UInt64.toNat_add, UInt64.toNat_mul, UInt64.toNat_ofNat', UInt64.reduceToNat] at hnat
    omega
  refine ⟨rfl, ⟨rfl, fun _ _ => rfl⟩, ⟨rfl, ?_⟩, hfork, by decide, htail, ?_, ?_, by decide, ?_, ?_,
    rfl, rfl, rfl, rfl, ?_, rfl⟩
  · intro a ha
    rw [hsp] at ha
    exact if_neg (hfar ha)
  · intro i hi
    rw [hchild, hcurrent, hmem, hmem, if_pos ⟨i, hi, rfl⟩, if_neg (hfar ⟨i, hi, rfl⟩)]
    have hrax : 24400 + 8 * UInt64.ofNat i = 24400 + 112 ↔ i = 14 := by
      constructor
      · exact fun he => offset_inj (a := 24400) (j := 14) (by omega) (by omega) he
      · rintro rfl
        rfl
    have hplace : 24400 + 8 * UInt64.ofNat i - 24400 + 16208 = 16208 + 8 * UInt64.ofNat i := by
      rw [UInt64.add_comm 24400, UInt64.add_sub_cancel, UInt64.add_comm]
    simp only [hrax, hplace]
  · rintro a ⟨i, hi, rfl⟩
    have htop : forkedSystem.top 2 = 24576 := rfl
    rw [hchild, htop]
    simp only [InStack, UInt64.toNat_add, UInt64.toNat_mul, UInt64.toNat_ofNat',
      UInt64.reduceToNat]
    omega
  · intro t _ a hat hau
    have htop : forking.top t = 16384 := rfl
    have htop' : forkedSystem.top 2 = 24576 := rfl
    rw [htop] at hat
    rw [htop'] at hau
    simp only [InStack, UInt64.reduceToNat] at hat hau
    omega
  · intro t ht hne
    exact absurd (List.mem_singleton.mp ht) hne
  · intro t ht
    exact if_neg ht

def childSystem : System where
  cpu := run forkHandler irq0 forkedSystem.cpu.interrupt
  kernel := ((forkedSystem.kernel.schedule forkEnv 16208).getD (0, forkedSystem.kernel)).2
  tasks := [1, 2]
  top := forkedSystem.top
  history := (1, forkedSystem.cpu.context) :: forkedSystem.history

set_option maxRecDepth 8000 in
theorem forked_tick : Ticks forkEnv forkHandler forkedSystem childSystem := by
  have huser : forkedSystem.cpu.user = true := rfl
  have hsp : (forkedSystem.cpu.entered 32).sp = 16208 := rfl
  refine ⟨fun h => ?_, fun _ _ => rfl, ⟨by decide, ⟨2, by decide, by decide⟩, ?_, rfl, rfl, rfl⟩,
    rfl, rfl⟩
  · rw [huser] at h
    cases h
  · rw [hsp]
    exact ⟨24400, rfl, rfl⟩

set_option maxRecDepth 8000 in
theorem childSystem_current : childSystem.kernel.current = 2 := rfl

theorem forking_returns_twice : forkedSystem.cpu.context.reg .rax = 2 ∧
    childSystem.cpu.context.reg .rax = 0 ∧ childSystem.cpu.context.rip = 0x400002 := by
  have hhistory : childSystem.history = [(1, forkedSystem.cpu.context)] ++ forkedSystem.history :=
    rfl
  obtain ⟨-, hparent, hchild⟩ := fork_returns_twice forking_sound forking_listed forking_forks .refl
    (.tick forked_tick) childSystem_current hhistory (by simp)
  rw [hparent, hchild]
  have hpid : Function.update forking.cpu.reg .rax (UInt64.ofInt 2) .rax = 2 :=
    Function.update_self ..
  have hzero : Function.update forking.cpu.reg .rax 0 .rax = 0 := Function.update_self ..
  exact ⟨hpid, hzero, rfl⟩

end System

end LosTacOS.Arch
