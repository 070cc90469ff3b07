import Mathlib
import LosTacOS.Lib.StackMachine

/-! The stubs through which interrupts and system calls come into the kernel and leave it again. -/
namespace LosTacOS.Arch

open StackMachine

inductive Reg
  | rax
  | rbx
  | rcx
  | rdx
  | rsi
  | rdi
  | rbp
  | r8
  | r9
  | r10
  | r11
  | r12
  | r13
  | r14
  | r15
deriving DecidableEq

/-- What the stubs save of the processor: the general-purpose registers and the words of `iretq`. The
x87 and SSE state and the other segment registers are left as they are. -/
structure Context where
  reg : Reg → UInt64
  rip : UInt64
  cs : UInt64
  rflags : UInt64
  rsp : UInt64
  ss : UInt64

/-- The processor and the memory; `rsp0` is the stack pointer in the TSS. -/
structure Cpu extends StackMachine.Cpu Reg where
  rip : UInt64
  cs : UInt64
  rflags : UInt64
  ss : UInt64
  rsp0 : UInt64

namespace Cpu

def context (c : Cpu) : Context := ⟨c.reg, c.rip, c.cs, c.rflags, c.sp, c.ss⟩

def user (c : Cpu) : Bool := c.cs &&& 3 = 3

def entryStack (c : Cpu) : UInt64 := (if c.user then c.rsp0 else c.sp) &&& ~~~15

/-- What the processor does at an interrupt without an error code. It clears `IF`, `TF`, `RF`, `NT`
and `VM`. -/
def interrupt (c : Cpu) : Cpu :=
  { c with
    toCpu := { c.toCpu with sp := c.entryStack }.pushWords [c.ss, c.sp, c.rflags, c.cs, c.rip]
    cs := 8
    ss := if c.user then 0 else c.ss
    rflags := c.rflags &&& ~~~0x34300 }

end Cpu

inductive Callee
  | timerIrq
  | keyboardIrq
  | mouseIrq
  | setCurrentRegs
  | syscallHandler

inductive Instr
  | cli
  | pushImm (w : UInt64)
  | push (r : Reg)
  | pop (r : Reg)
  | mov (d s : Reg)
  | movFromRsp (d : Reg)
  | movToRsp (s : Reg)
  | load (d : Reg) (off : UInt64)
  | store (off : UInt64) (s : Reg)
  | addRsp (n : UInt64)
  | call (f : Callee)
  | iretq

section exec

variable (calls : Callee → Cpu → Cpu)

def Instr.exec : Instr → Cpu → Cpu
  | .cli, c => { c with rflags := c.rflags &&& ~~~0x200 }
  | .pushImm w, c => { c with toCpu := c.toCpu.push w }
  | .push r, c => { c with toCpu := c.toCpu.push (c.reg r) }
  | .pop r, c => { c with toCpu := c.toCpu.pop r }
  | .mov d s, c => { c with reg := Function.update c.reg d (c.reg s) }
  | .movFromRsp d, c => { c with reg := Function.update c.reg d c.sp }
  | .movToRsp s, c => { c with sp := c.reg s }
  | .load d off, c => { c with reg := Function.update c.reg d (c.mem (c.sp + off)) }
  | .store off s, c => { c with mem := Function.update c.mem (c.sp + off) (c.reg s) }
  | .addRsp n, c => { c with sp := c.sp + n }
  | .call f, c => calls f c
  | .iretq, c =>
    { c with
      rip := c.mem c.sp
      cs := c.mem (c.sp + 8)
      rflags := c.mem (c.sp + 16)
      sp := c.mem (c.sp + 24)
      ss := c.mem (c.sp + 32) }

def run (is : List Instr) (c : Cpu) : Cpu := is.foldl (fun c i => i.exec calls c) c

end exec

def pushed : List Reg :=
  [.rax, .rbx, .rcx, .rdx, .rsi, .rdi, .rbp, .r8, .r9, .r10, .r11, .r12, .r13, .r14, .r15]

def popped : List Reg :=
  [.r15, .r14, .r13, .r12, .r11, .r10, .r9, .r8, .rbp, .rdi, .rsi, .rdx, .rcx, .rbx, .rax]

def enter (vector : UInt64) : List Instr := [.pushImm 0, .pushImm vector] ++ pushed.map .push

def leave : List Instr := popped.map .pop ++ [.addRsp 16, .iretq]

def irq (vector : UInt64) (f : Callee) : List Instr :=
  enter vector ++ [.movFromRsp .rdi, .call f, .movToRsp .rax] ++ leave

def irq0 : List Instr := irq 32 .timerIrq

def irq1Handler : List Instr := irq 33 .keyboardIrq

def irq12Handler : List Instr := irq 44 .mouseIrq

/-- The registers of a program become arguments: the last one on the stack, and the others moved
along. -/
def passArguments : List Instr :=
  [.movFromRsp .rdi, .call .setCurrentRegs, .load .rax 48, .push .rax, .load .rdi (8 + 112),
    .load .rsi (8 + 72), .load .rdx (8 + 80), .load .rcx (8 + 88), .load .r8 (8 + 40),
    .load .r9 (8 + 56)]

def isr128 : List Instr :=
  [.cli] ++ enter 128 ++ passArguments ++
    [.call .syscallHandler, .addRsp 8, .store 112 .rax] ++ leave

def execEnter : List Instr := [.movToRsp .rdi] ++ leave

/-- `Registers`, as it lies in memory. -/
def Context.words (x : Context) (vector error : UInt64) : List UInt64 :=
  popped.map x.reg ++ [vector, error, x.rip, x.cs, x.rflags, x.rsp, x.ss]

@[simp]
theorem Context.words_length (x : Context) (v e : UInt64) : (x.words v e).length = 22 := rfl

variable {calls : Callee → Cpu → Cpu} {c : Cpu} {x : Context} {v e : UInt64} {is js : List Instr}
  {a : UInt64}

theorem run_append (is js : List Instr) (c : Cpu) :
    run calls (is ++ js) c = run calls js (run calls is c) :=
  List.foldl_append

theorem run_push (rs : List Reg) (c : Cpu) :
    run calls (rs.map .push) c = { c with toCpu := c.toCpu.pushAll rs } := by
  induction rs generalizing c with
  | nil => rfl
  | cons r rs ih => exact ih { c with toCpu := c.toCpu.push (c.reg r) }

theorem run_pop (rs : List Reg) (c : Cpu) :
    run calls (rs.map .pop) c = { c with toCpu := c.toCpu.popAll rs } := by
  induction rs generalizing c with
  | nil => rfl
  | cons r rs ih => exact ih { c with toCpu := c.toCpu.pop r }

section enter

def Cpu.saved (c : Cpu) (vector : UInt64) : List UInt64 := (c.context.words vector 0).reverse

def Cpu.entered (c : Cpu) (vector : UInt64) : StackMachine.Cpu Reg :=
  { c.toCpu with sp := c.entryStack }.pushWords (c.saved vector)

theorem Cpu.saved_eq (c : Cpu) (vector : UInt64) :
    c.saved vector = [c.ss, c.sp, c.rflags, c.cs, c.rip] ++ [0, vector] ++ pushed.map c.reg := rfl

theorem run_vector (vector : UInt64) (c : Cpu) : run calls [.pushImm 0, .pushImm vector] c =
    { c with toCpu := c.toCpu.pushWords [0, vector] } := rfl

theorem run_enter {d : Cpu} (vector : UInt64) (hd : d.toCpu = c.interrupt.toCpu) :
    run calls (enter vector) d = { d with toCpu := c.entered vector } := by
  have hpush : c.entered vector = (d.toCpu.pushWords [0, vector]).pushAll pushed := by
    rw [hd]
    rw [StackMachine.Cpu.pushAll_eq, StackMachine.Cpu.pushWords_reg]
    unfold Cpu.entered Cpu.interrupt
    rw [Cpu.saved_eq, StackMachine.Cpu.pushWords_append, StackMachine.Cpu.pushWords_append]
    dsimp only
    rw [StackMachine.Cpu.pushWords_reg]
  rw [enter, run_append, run_push, run_vector, hpush]

/-- The registers lie on the stack as the handler wants them. -/
theorem entered_holds (vector : UInt64) (c : Cpu) :
    Holds (c.entered vector).mem (c.entered vector).sp (c.context.words vector 0) := by
  have hnil : Holds c.mem c.entryStack [] := by
    intro i hi
    cases hi
  have hlen : (c.saved vector).length + ([] : List UInt64).length < 2 ^ 60 := by
    simp [Cpu.saved]
  have hall := StackMachine.Cpu.pushWords_holds (c := { c.toCpu with sp := c.entryStack }) hlen hnil
  rw [List.append_nil, Cpu.saved, List.reverse_reverse] at hall
  exact hall

theorem entered_sp (vector : UInt64) (c : Cpu) : c.entryStack = (c.entered vector).sp + 176 := by
  have hsp := StackMachine.Cpu.pushWords_sp { c.toCpu with sp := c.entryStack } (c.saved vector)
  rw [Cpu.saved, List.length_reverse, Context.words_length] at hsp
  exact hsp

theorem entered_frame {vector a : UInt64} (h : ¬ Among (c.entered vector).sp 22 a) :
    (c.entered vector).mem a = c.mem a := by
  apply StackMachine.Cpu.pushWords_frame
  rw [Cpu.saved, List.length_reverse, Context.words_length]
  exact h

end enter

section leave

theorem popped_nodup : popped.Nodup := by decide

theorem mem_popped (r : Reg) : r ∈ popped := by
  cases r <;> decide

theorem run_leave (h : Holds c.mem c.sp (x.words v e)) :
    (run calls leave c).context = x ∧ (run calls leave c).mem = c.mem ∧
      (run calls leave c).rsp0 = c.rsp0 := by
  obtain ⟨hregs, hrest⟩ := holds_append.mp h
  unfold leave
  rw [run_append, run_pop]
  have hreg : (c.toCpu.popAll popped).reg = x.reg := by
    funext r
    exact StackMachine.Cpu.popAll_reg popped_nodup hregs (mem_popped r)
  have hmem := StackMachine.Cpu.popAll_mem c.toCpu popped
  have hsp := StackMachine.Cpu.popAll_sp c.toCpu popped
  have hplace (i : Nat) : (c.toCpu.popAll popped).sp + 16 + 8 * UInt64.ofNat i =
      c.sp + 8 * UInt64.ofNat 15 + 8 * UInt64.ofNat (2 + i) := by
    rw [hsp, ← offset_add _ 2 i]
    rfl
  have hword (i : Nat) (o : UInt64) (ho : 8 * UInt64.ofNat i = o) (hi : 2 + i < 7) :
      (c.toCpu.popAll popped).mem ((c.toCpu.popAll popped).sp + 16 + o) =
        [v, e, x.rip, x.cs, x.rflags, x.rsp, x.ss].getD (2 + i) 0 := by
    rw [hmem, ← ho, hplace]
    exact hrest _ hi
  have hrip := hword 0 0 rfl (by decide)
  have hcs := hword 1 8 rfl (by decide)
  have hrflags := hword 2 16 rfl (by decide)
  have hrsp := hword 3 24 rfl (by decide)
  have hss := hword 4 32 rfl (by decide)
  rw [UInt64.add_zero] at hrip
  refine ⟨?_, hmem, rfl⟩
  simp only [run, List.foldl_cons, List.foldl_nil, Instr.exec, Cpu.context]
  rw [hreg, hrip, hcs, hrflags, hrsp, hss]
  rfl

end leave

theorem run_call (f : Callee) (is : List Instr) (c : Cpu) :
    run calls (.call f :: is) c = run calls is (calls f c) := rfl

section syscall

theorem words_set_rax (x : Context) (w : UInt64) : (x.words v e).set 14 w =
    ({ x with reg := Function.update x.reg .rax w } : Context).words v e := by
  simp [Context.words, popped]

/-- A function returns, and leaves the `n` words from `a` on as they are. -/
structure Returns (f : Cpu → Cpu) (c : Cpu) (a : UInt64) (n : Nat) : Prop where
  sp : (f c).sp = c.sp
  keeps : ∀ b, Among a n b → (f c).mem b = c.mem b

def Cpu.arguments (c : Cpu) : List UInt64 :=
  [c.reg .rdi, c.reg .rsi, c.reg .rdx, c.reg .rcx, c.reg .r8, c.reg .r9, c.mem c.sp]

def atCurrentRegs (c : Cpu) : Cpu :=
  { c.interrupt with
    rflags := c.interrupt.rflags &&& ~~~0x200
    toCpu := { c.entered 128 with
      reg := Function.update (c.entered 128).reg .rdi (c.entered 128).sp } }

def atHandler (calls : Callee → Cpu → Cpu) (c : Cpu) : Cpu :=
  run calls ([.cli] ++ enter 128 ++ passArguments) c.interrupt

theorem atHandler_eq (calls : Callee → Cpu → Cpu) (c : Cpu) :
    atHandler calls c =
      run calls (passArguments.drop 2) (calls .setCurrentRegs (atCurrentRegs c)) := by
  have henter : run calls (enter 128) (run calls [.cli] c.interrupt) =
      { run calls [.cli] c.interrupt with toCpu := c.entered 128 } := run_enter 128 rfl
  rw [atHandler, run_append, run_append, henter]
  rfl

/-- A run of the loads of the arguments, for a stack that holds the seventh in front of the
registers. -/
theorem loads_arguments {s : Cpu} {a6 : UInt64} (hs : Holds s.mem s.sp (a6 :: x.words v e)) :
    (run calls (passArguments.drop 4) s).arguments =
      [x.reg .rax, x.reg .rdi, x.reg .rsi, x.reg .rdx, x.reg .r10, x.reg .r8, a6] ∧
    (run calls (passArguments.drop 4) s).sp = s.sp ∧
    (run calls (passArguments.drop 4) s).mem = s.mem := by
  have hword (i : Nat) (o : UInt64) (ho : 8 * UInt64.ofNat i = o) (hi : i < 23) :
      s.mem (s.sp + o) = (a6 :: x.words v e).getD i 0 := by
    rw [← ho]
    exact hs i hi
  have htop := hword 0 0 rfl (by decide)
  rw [UInt64.add_zero] at htop
  refine ⟨?_, rfl, rfl⟩
  simp only [passArguments, List.drop_succ_cons, List.drop_zero, run, List.foldl_cons,
    List.foldl_nil, Instr.exec, Cpu.arguments]
  rw [hword 15 (8 + 112) rfl (by decide), hword 10 (8 + 72) rfl (by decide),
    hword 11 (8 + 80) rfl (by decide), hword 12 (8 + 88) rfl (by decide),
    hword 6 (8 + 40) rfl (by decide), hword 8 (8 + 56) rfl (by decide), htop]
  rfl

/-- The handler is called with what the program has in its registers. -/
theorem atHandler_words
    (h : Returns (calls .setCurrentRegs) (atCurrentRegs c) (c.entered 128).sp 22) :
    (atHandler calls c).arguments =
      [c.reg .rax, c.reg .rdi, c.reg .rsi, c.reg .rdx, c.reg .r10, c.reg .r8, c.reg .r9] ∧
    (atHandler calls c).sp = (c.entered 128).sp - 8 ∧
    Holds (atHandler calls c).mem (c.entered 128).sp (c.context.words 128 0) := by
  have hsp : (calls .setCurrentRegs (atCurrentRegs c)).sp = (c.entered 128).sp := h.sp
  have hwords : Holds (calls .setCurrentRegs (atCurrentRegs c)).mem (c.entered 128).sp
      (c.context.words 128 0) := (entered_holds 128 c).congr h.keeps
  rw [atHandler_eq]
  generalize calls .setCurrentRegs (atCurrentRegs c) = s at hsp hwords
  rw [← hsp] at hwords ⊢
  have hr9 : s.mem (s.sp + 48) = c.reg .r9 := hwords 6 (by simp)
  have hpush := StackMachine.Cpu.push_holds (w := c.reg .r9) (by simp) hwords
  have hsplit : run calls (passArguments.drop 2) s = run calls (passArguments.drop 4)
      { s with
        toCpu :=
          { s.toCpu with reg := Function.update s.reg .rax (c.reg .r9) }.push (c.reg .r9) } := by
    rw [← hr9]
    rfl
  rw [hsplit]
  obtain ⟨hargs, hsp', hmem⟩ := @loads_arguments calls c.context 128 0 { s with
    toCpu := { s.toCpu with reg := Function.update s.reg .rax (c.reg .r9) }.push (c.reg .r9) }
    (c.reg .r9) hpush
  refine ⟨hargs, hsp', ?_⟩
  rw [hmem]
  have hrest := (holds_cons.mp hpush).2
  have hback : s.sp - 8 + 8 = s.sp := UInt64.sub_add_cancel s.sp 8
  exact hback ▸ hrest

variable (h : Returns (calls .setCurrentRegs) (atCurrentRegs c) (c.entered 128).sp 22)
  (h' : Returns (calls .syscallHandler) (atHandler calls c) (c.entered 128).sp 22)

include h h'

/-- A program goes on with the result in `rax`, and nothing else of the processor has changed. -/
theorem isr128_context : (run calls isr128 c.interrupt).context =
    { c.context with
      reg := Function.update c.reg .rax ((calls .syscallHandler (atHandler calls c)).reg .rax) } ∧
    (run calls isr128 c.interrupt).mem =
      Function.update (calls .syscallHandler (atHandler calls c)).mem ((c.entered 128).sp + 112)
        ((calls .syscallHandler (atHandler calls c)).reg .rax) ∧
    (run calls isr128 c.interrupt).rsp0 = (calls .syscallHandler (atHandler calls c)).rsp0 := by
  obtain ⟨-, hsp, hwords⟩ := atHandler_words h
  have hkept := hwords.congr h'.keeps
  have hsp' := h'.sp.trans hsp
  have hsplit : run calls isr128 c.interrupt = run calls leave
      (run calls [.addRsp 8, .store 112 .rax] (calls .syscallHandler (atHandler calls c))) := by
    rw [isr128, run_append, run_append, run_call]
    exact congrArg (run calls leave) rfl
  rw [hsplit]
  clear hsplit
  generalize calls .syscallHandler (atHandler calls c) = s at hkept hsp'
  have hback : s.sp + 8 = (c.entered 128).sp := by
    rw [hsp']
    exact UInt64.sub_add_cancel _ 8
  have hstore : run calls [.addRsp 8, .store 112 .rax] s =
      { s with
        sp := (c.entered 128).sp
        mem := Function.update s.mem ((c.entered 128).sp + 112) (s.reg .rax) } := by
    simp only [run, List.foldl_cons, List.foldl_nil, Instr.exec, hback]
  rw [hstore]
  have hset := hkept.set (w := s.reg .rax) (i := 14) (by simp) (by simp)
  have hplace : (8 * UInt64.ofNat 14 : UInt64) = 112 := rfl
  rw [words_set_rax, hplace] at hset
  exact @run_leave calls { s with
    sp := (c.entered 128).sp
    mem := Function.update s.mem ((c.entered 128).sp + 112) (s.reg .rax) } _ _ _ hset

end syscall

section libc

/-- What `syscall` of the library does in front of `int 0x80`. -/
def libcMoves : List Instr :=
  [.mov .r10 .r8, .mov .r8 .r9, .load .r9 8, .mov .rax .rdi, .mov .rdi .rsi, .mov .rsi .rdx,
    .mov .rdx .rcx]

def Cpu.ret (c : Cpu) : Cpu := { c with rip := c.mem c.sp, sp := c.sp + 8 }

def atInt (calls : Callee → Cpu → Cpu) (c : Cpu) : Cpu := run calls libcMoves c

/-- `syscall` of the library, from its first instruction to its return. -/
def libcSyscall (calls : Callee → Cpu → Cpu) (c : Cpu) : Cpu :=
  (run calls isr128 (atInt calls c).interrupt).ret

/-- The arguments of a C function that has just been called: the return address lies in front of the
seventh. -/
def Cpu.parameters (c : Cpu) : List UInt64 :=
  [c.reg .rdi, c.reg .rsi, c.reg .rdx, c.reg .rcx, c.reg .r8, c.reg .r9, c.mem (c.sp + 8)]

def calleeSaved : List Reg := [.rbx, .rbp, .r12, .r13, .r14, .r15]

theorem atInt_saved {r : Reg} (hr : r ∈ calleeSaved) : (atInt calls c).reg r = c.reg r := by
  simp only [calleeSaved, List.mem_cons, List.not_mem_nil, or_false] at hr
  rcases hr with rfl | rfl | rfl | rfl | rfl | rfl <;> rfl

/-- The handler of the kernel is called with the very arguments that the library was called with,
and the caller gets what the handler returns, with its own registers and its stack as they were. -/
theorem libcSyscall_returns
    (h : Returns (calls .setCurrentRegs) (atCurrentRegs (atInt calls c))
      ((atInt calls c).entered 128).sp 22)
    (h' : Returns (calls .syscallHandler) (atHandler calls (atInt calls c))
      ((atInt calls c).entered 128).sp 22)
    (hout : ¬ Among ((atInt calls c).entered 128).sp 22 c.sp)
    (hret : (calls .syscallHandler (atHandler calls (atInt calls c))).mem c.sp = c.mem c.sp) :
    (atHandler calls (atInt calls c)).arguments = c.parameters ∧
      (libcSyscall calls c).reg .rax =
        (calls .syscallHandler (atHandler calls (atInt calls c))).reg .rax ∧
      (∀ r ∈ calleeSaved, (libcSyscall calls c).reg r = c.reg r) ∧
      (libcSyscall calls c).sp = c.sp + 8 ∧ (libcSyscall calls c).rip = c.mem c.sp ∧
      (libcSyscall calls c).cs = c.cs ∧ (libcSyscall calls c).rflags = c.rflags ∧
      (libcSyscall calls c).ss = c.ss := by
  obtain ⟨hcontext, hmem, -⟩ := isr128_context h h'
  obtain ⟨hargs, -, -⟩ := atHandler_words h
  unfold libcSyscall
  generalize run calls isr128 (atInt calls c).interrupt = d at hcontext hmem
  obtain ⟨hreg, -, hcs, hrflags, hsp, hss⟩ := Context.mk.inj hcontext
  have hsp : d.sp = c.sp := hsp
  have hword : d.mem d.sp = c.mem c.sp := by
    have hne : c.sp ≠ ((atInt calls c).entered 128).sp + 112 := fun he => hout ⟨14, by decide, he⟩
    rw [hsp, hmem, Function.update_of_ne hne, hret]
  refine ⟨hargs, ?_, ?_, ?_, hword, hcs, hrflags, hss⟩
  · exact (congrFun hreg .rax).trans (Function.update_self _ _ _)
  · intro r hr
    have hne : r ≠ .rax := by
      rintro rfl
      revert hr
      decide
    exact (congrFun hreg r).trans ((Function.update_of_ne hne _ _).trans (atInt_saved hr))
  · exact congrArg (· + 8) hsp

def addingHandler : Callee → Cpu → Cpu
  | .syscallHandler, c =>
    { c with reg := Function.update c.reg .rax (c.reg .rdi + c.mem c.sp) }
  | _, c => c

/-- A program whose stack is at 4096, and the kernel's at 65536. -/
def callingProgram : Cpu where
  reg r := if r = .rdi then 40 else 0
  sp := 4096
  mem a := if a = 4096 then 1000 else if a = 4104 then 2 else 0
  rip := 0
  cs := 0x1b
  rflags := 0x202
  ss := 0x23
  rsp0 := 65536

theorem addingHandler_returns :
    (atHandler addingHandler (atInt addingHandler callingProgram)).arguments =
      callingProgram.parameters ∧
    (libcSyscall addingHandler callingProgram).rip = 1000 := by
  obtain ⟨hargs, -, -, -, hrip, -⟩ := @libcSyscall_returns addingHandler callingProgram
    ⟨rfl, fun _ _ => rfl⟩ ⟨rfl, fun _ _ => rfl⟩ (by decide) (by decide)
  exact ⟨hargs, hrip⟩

end libc

end LosTacOS.Arch
