import LosTacOS.Mm.Exec

/-! The first frame of a program: `setup_user_stack` writes arguments and environment on the new
stack, `_start` in crt0 reads them back for `main`. -/
namespace LosTacOS.Mm
open ByteMemory

def CString := { s : List UInt8 // 0 ∉ s }

def CString.bytes (s : CString) : List UInt8 := s.1 ++ [0]

structure Stack where
  mem : Mem
  sp : Nat

def Stack.push (st : Stack) (w : Nat) : Stack := ⟨storeLE st.mem (st.sp - 8) 8 w, st.sp - 8⟩

/-- `for (i = n - 1; i >= 0; i--)`: the first word ends up lowest. -/
def Stack.pushAll (st : Stack) (ws : List Nat) : Stack := ws.foldr (fun w st => st.push w) st

def Stack.copyStrings : List CString → Stack → List Nat × Stack
  | [], st => ([], st)
  | s :: ss, st =>
    let sp := st.sp - s.bytes.length
    let (ptrs, st) := copyStrings ss ⟨storeBytes st.mem sp s.bytes, sp⟩
    (sp :: ptrs, st)

/-- `setup_user_stack`; a null vector is an empty one. -/
def setupUserStack (mem : Mem) (stackTop : Nat) (argv envp : List CString) : Stack :=
  let (envPtrs, st) := Stack.copyStrings (envp.take 63) ⟨mem, stackTop⟩
  let (argvPtrs, st) := Stack.copyStrings (argv.take 63) st
  let argc := argvPtrs.length
  let envc := envPtrs.length
  let st : Stack := ⟨st.mem, st.sp / 16 * 16⟩
  -- an even number of words keeps the stack aligned
  let st := if (argc + envc + 3) % 2 ≠ 0 then st.push 0 else st
  let st := (st.push 0).pushAll envPtrs
  let st := (st.push 0).pushAll argvPtrs
  st.push argc

structure MainArgs where
  argc : Nat
  argv : Nat
  envp : Nat

def crtStart (st : Stack) : MainArgs :=
  let r12 := st.sp
  let rdi := loadLE st.mem r12 8
  let rsi := r12 + 8
  let rdx := rsi
  let rax := loadLE st.mem r12 8
  let rax := rax + 1
  let rax := rax * 8
  let rdx := rdx + rax
  let rdx := rdx + 8
  ⟨rdi, rsi, rdx⟩

def StringAt (mem : Mem) (a : Nat) (s : CString) : Prop := loadBytes mem a s.bytes.length = s.bytes

def VectorAt (mem : Mem) : Nat → List CString → Prop
  | p, [] => loadLE mem p 8 = 0
  | p, s :: ss => loadLE mem p 8 ≠ 0 ∧ StringAt mem (loadLE mem p 8) s ∧ VectorAt mem (p + 8) ss

def stringBytes (ss : List CString) : List UInt8 := ss.reverse.flatMap CString.bytes

def frameWords (argv envp : List CString) : Nat :=
  argv.length + envp.length + 3 + (argv.length + envp.length + 3) % 2

/-- The gap that the alignment leaves above the words of the frame, when there is no environment. -/
def alignGap (argv : List CString) : Nat := (16 - (stringBytes argv).length % 16) % 16

def aboveFrame (argv : List CString) : List UInt8 :=
  (List.replicate (alignGap argv) 0 ++ stringBytes argv).take 8

section words

def WordsAt (mem : Mem) : Nat → List Nat → Prop
  | _, [] => True
  | a, w :: ws => loadLE mem a 8 = w ∧ WordsAt mem (a + 8) ws

variable {mem mem' : Mem} {a : Nat} {ws vs : List Nat}

theorem WordsAt.congr (h : WordsAt mem a ws) (hag : AgreeOn mem mem' a (a + 8 * ws.length)) :
    WordsAt mem' a ws := by
  induction ws generalizing a with
  | nil => trivial
  | cons w ws ih =>
    rw [List.length_cons] at hag
    refine ⟨?_, ih h.2 (hag.mono (by omega) (by omega))⟩
    rw [loadLE_congr (hag.mono (by omega) (by omega)), h.1]

theorem WordsAt.append (h : WordsAt mem a (vs ++ ws)) : WordsAt mem (a + 8 * vs.length) ws := by
  induction vs generalizing a with
  | nil => exact h
  | cons v vs ih =>
    have ht := ih h.2
    rw [List.length_cons]
    rwa [show a + 8 + 8 * vs.length = a + 8 * (vs.length + 1) by omega] at ht

theorem WordsAt.take (h : WordsAt mem a (vs ++ ws)) : WordsAt mem a vs := by
  induction vs generalizing a with
  | nil => trivial
  | cons v vs ih => exact ⟨h.1, ih h.2⟩

/-- What `pushAll` leaves: the words in order, and nothing else touched. -/
theorem pushAll_spec {st : Stack} (hws : ∀ w ∈ ws, w < 2^64) (hsp : 8 * ws.length ≤ st.sp) :
    (st.pushAll ws).sp = st.sp - 8 * ws.length ∧
      WordsAt (st.pushAll ws).mem (st.pushAll ws).sp ws ∧
      ∀ x, x < (st.pushAll ws).sp ∨ st.sp ≤ x → (st.pushAll ws).mem x = st.mem x := by
  induction ws with
  | nil => exact ⟨rfl, trivial, fun _ _ => rfl⟩
  | cons w ws ih =>
    rw [List.length_cons] at hsp ⊢
    obtain ⟨hlen, hwords, hout⟩ := ih (fun v hv => hws v (List.mem_cons_of_mem _ hv)) (by omega)
    have hpush : st.pushAll (w :: ws) = (st.pushAll ws).push w := rfl
    rw [hpush, Stack.push]
    refine ⟨by simp only [hlen]; omega, ⟨?_, ?_⟩, fun x hx => ?_⟩
    · rw [loadLE_storeLE_same]
      exact Nat.mod_eq_of_lt (hws w List.mem_cons_self)
    · rw [show (st.pushAll ws).sp - 8 + 8 = (st.pushAll ws).sp by omega]
      exact hwords.congr (storeLE_agree (by omega))
    · simp only at hx ⊢
      rw [storeLE_out (by omega)]
      exact hout x (by omega)

theorem pushAll_append (st : Stack) (vs ws : List Nat) :
    st.pushAll (vs ++ ws) = (st.pushAll ws).pushAll vs := List.foldr_append

end words

section strings

/-- The pointers lead to the strings, which lie in `[lo, hi)`. -/
def Copied (mem : Mem) (lo hi : Nat) : List Nat → List CString → Prop :=
  List.Forall₂ fun p s => StringAt mem p s ∧ lo ≤ p ∧ p + s.bytes.length ≤ hi

variable {mem mem' : Mem} {lo hi a : Nat} {ptrs : List Nat} {ss : List CString}

theorem Copied.mono {lo' hi' : Nat} (h : Copied mem lo hi ptrs ss) (hag : AgreeOn mem mem' lo hi)
    (hlo : lo' ≤ lo) (hhi : hi ≤ hi') : Copied mem' lo' hi' ptrs ss := by
  refine List.Forall₂.imp (fun p s hp => ?_) h
  obtain ⟨hs, hl, hh⟩ := hp
  refine ⟨?_, by omega, by omega⟩
  rw [StringAt, loadBytes_congr (hag.mono hl hh)]
  exact hs

theorem loadBytes_storeBytes (mem : Mem) (a : Nat) (bs : List UInt8) :
    loadBytes (storeBytes mem a bs) a bs.length = bs := by
  refine List.ext_getElem (by simp [loadBytes]) fun i h1 h2 => ?_
  have hin : a ≤ a + i ∧ a + i < a + bs.length := by omega
  simp only [loadBytes, List.getElem_map, List.getElem_range, storeBytes, if_pos hin,
    Nat.add_sub_cancel_left]
  simp [h2]

theorem loadBytes_add (mem : Mem) (a n k : Nat) :
    loadBytes mem a (n + k) = loadBytes mem a n ++ loadBytes mem (a + n) k := by
  unfold loadBytes
  rw [List.range_add, List.map_append, List.map_map]
  simp [Function.comp_def, Nat.add_assoc]

theorem stringBytes_cons (s : CString) (ss : List CString) :
    stringBytes (s :: ss) = stringBytes ss ++ s.bytes := by
  simp [stringBytes, List.flatMap_append]

theorem Copied.of_zip (h : Copied mem lo hi ptrs ss) {q : Nat × CString} (hq : q ∈ ptrs.zip ss) :
    StringAt mem q.1 q.2 ∧ lo ≤ q.1 ∧ q.1 + q.2.bytes.length ≤ hi := by
  induction h with
  | nil => cases hq
  | cons hp _ ih =>
    rcases List.mem_cons.mp hq with rfl | hq
    · exact hp
    · exact ih hq

theorem copyStrings_spec {st : Stack} (hsp : (stringBytes ss).length ≤ st.sp) :
    (Stack.copyStrings ss st).2.sp = st.sp - (stringBytes ss).length ∧
      Copied (Stack.copyStrings ss st).2.mem (Stack.copyStrings ss st).2.sp st.sp
        (Stack.copyStrings ss st).1 ss ∧
      loadBytes (Stack.copyStrings ss st).2.mem (Stack.copyStrings ss st).2.sp
        (stringBytes ss).length = stringBytes ss ∧
      ∀ x, x < (Stack.copyStrings ss st).2.sp ∨ st.sp ≤ x →
        (Stack.copyStrings ss st).2.mem x = st.mem x := by
  induction ss generalizing st with
  | nil => exact ⟨rfl, .nil, rfl, fun _ _ => rfl⟩
  | cons s ss ih =>
    have hlen : (stringBytes (s :: ss)).length = (stringBytes ss).length + s.bytes.length := by
      rw [stringBytes_cons, List.length_append]
    rw [hlen] at hsp ⊢
    generalize hmid : st.sp - s.bytes.length = mid
    obtain ⟨hlow, hcop, hbytes, hout⟩ :=
      @ih ⟨storeBytes st.mem mid s.bytes, mid⟩ (by simp only; omega)
    simp only [Stack.copyStrings, hmid]
    revert hlow hcop hbytes hout
    generalize Stack.copyStrings ss ⟨storeBytes st.mem mid s.bytes, mid⟩ = r
    intro hlow hcop hbytes hout
    simp only at hlow hcop hout
    have hag : AgreeOn (storeBytes st.mem mid s.bytes) r.2.mem mid (mid + s.bytes.length) :=
      fun x hx _ => hout x (Or.inr hx)
    have hs : loadBytes r.2.mem mid s.bytes.length = s.bytes := by
      rw [loadBytes_congr hag, loadBytes_storeBytes]
    refine ⟨by omega, .cons ⟨hs, by omega, by omega⟩ (hcop.mono (.refl _ _ _) (Nat.le_refl _) (by omega)),
      ?_, fun x hx => ?_⟩
    · rw [loadBytes_add, hbytes, stringBytes_cons, hlow,
        show mid - (stringBytes ss).length + (stringBytes ss).length = mid by omega, hs]
    · rw [hout x (by omega)]
      exact storeBytes_out (by omega)

theorem copyStrings_apart {st : Stack} (hsp : (stringBytes ss).length ≤ st.sp) :
    ((Stack.copyStrings ss st).1.zip ss).Pairwise fun p q => q.1 + q.2.bytes.length ≤ p.1 := by
  induction ss generalizing st with
  | nil => exact .nil
  | cons s ss ih =>
    have hlen : (stringBytes (s :: ss)).length = (stringBytes ss).length + s.bytes.length := by
      rw [stringBytes_cons, List.length_append]
    generalize hmid : st.sp - s.bytes.length = mid
    have hroom : (stringBytes ss).length ≤ mid := by omega
    obtain ⟨-, hcop, -⟩ := @copyStrings_spec ss ⟨storeBytes st.mem mid s.bytes, mid⟩ hroom
    simp only [Stack.copyStrings, hmid, List.zip_cons_cons, List.pairwise_cons]
    refine ⟨fun q hq => ?_, ih hroom⟩
    exact (hcop.of_zip hq).2.2

theorem VectorAt.length_eq {ts : List CString} (h : VectorAt mem a ss) (h' : VectorAt mem a ts) :
    ss.length = ts.length := by
  induction ss generalizing a ts with
  | nil =>
    cases ts with
    | nil => rfl
    | cons t ts => exact absurd h h'.1
  | cons s ss ih =>
    cases ts with
    | nil => exact absurd h' h.1
    | cons t ts => rw [List.length_cons, List.length_cons, ih h.2.2 h'.2.2]

theorem Copied.length_eq (h : Copied mem lo hi ptrs ss) : ptrs.length = ss.length :=
  List.Forall₂.length_eq h

theorem Copied.lt (h : Copied mem lo hi ptrs ss) {p : Nat} (hp : p ∈ ptrs) : p < hi := by
  induction h with
  | nil => cases hp
  | @cons q s qs ss hq _ ih =>
    rcases List.mem_cons.mp hp with rfl | hp
    · have hlen : 0 < s.bytes.length := by simp [CString.bytes]
      omega
    · exact ih hp

end strings

section frame

def frame (argvPtrs envPtrs : List Nat) : List Nat :=
  argvPtrs.length :: (argvPtrs ++ 0 :: (envPtrs ++
    0 :: (if (argvPtrs.length + envPtrs.length + 3) % 2 ≠ 0 then [0] else [])))

theorem frame_length {argv envp : List CString} {argvPtrs envPtrs : List Nat}
    (ha : argvPtrs.length = argv.length) (he : envPtrs.length = envp.length) :
    (frame argvPtrs envPtrs).length = frameWords argv envp := by
  simp only [frame, frameWords, List.length_cons, List.length_append, ha, he]
  split
  · simp only [List.length_cons, List.length_nil]
    omega
  · simp only [List.length_nil]
    omega

theorem setupUserStack_eq (mem : Mem) (top : Nat) (argv envp : List CString) :
    setupUserStack mem top argv envp =
      let e := Stack.copyStrings (envp.take 63) ⟨mem, top⟩
      let a := Stack.copyStrings (argv.take 63) e.2
      Stack.pushAll ⟨a.2.mem, a.2.sp / 16 * 16⟩ (frame a.1 e.1) := by
  have hone : ∀ (st : Stack) (w : Nat) (ws : List Nat), st.pushAll (w :: ws) = (st.pushAll ws).push w :=
    fun _ _ _ => rfl
  simp only [setupUserStack, frame, hone, pushAll_append]
  split <;> rfl

def frameSize (argv envp : List CString) : Nat :=
  ((stringBytes argv).length + (stringBytes envp).length + 15) / 16 * 16 + 8 * frameWords argv envp

structure Placed (mem : Mem) (top : Nat) (st : Stack) (argv envp : List CString)
    (argvPtrs envPtrs : List Nat) : Prop where
  bottom : st.sp + frameSize argv envp = top
  words : WordsAt st.mem st.sp (frame argvPtrs envPtrs)
  args : Copied st.mem (st.sp + 8 * frameWords argv envp)
    (top - (stringBytes envp).length) argvPtrs argv
  envs : Copied st.mem (top - (stringBytes envp).length) top envPtrs envp
  below : loadBytes st.mem (top - (stringBytes envp).length - (stringBytes argv).length)
    (stringBytes argv).length = stringBytes argv
  kept : ∀ x, x < st.sp ∨ st.sp + 8 * frameWords argv envp ≤ x ∧
    x < top - (stringBytes envp).length - (stringBytes argv).length ∨ top ≤ x → st.mem x = mem x
  apart : (argvPtrs.zip argv).Pairwise (fun p q => q.1 + q.2.bytes.length ≤ p.1) ∧
    (envPtrs.zip envp).Pairwise fun p q => q.1 + q.2.bytes.length ≤ p.1

theorem frame_lt {argvPtrs envPtrs : List Nat} (hargv : argvPtrs.length < 2^64)
    (ha : ∀ p ∈ argvPtrs, p < 2^64) (he : ∀ p ∈ envPtrs, p < 2^64) :
    ∀ w ∈ frame argvPtrs envPtrs, w < 2^64 := by
  intro w hw
  simp only [frame, List.mem_cons, List.mem_append] at hw
  rcases hw with rfl | hw | rfl | hw | rfl | hw
  · exact hargv
  · exact ha w hw
  · omega
  · exact he w hw
  · omega
  · split at hw
    · rw [List.mem_singleton] at hw
      omega
    · cases hw

theorem setupUserStack_placed (mem : Mem) {top : Nat} {argv envp : List CString}
    (hargv : argv.length ≤ 63) (henvp : envp.length ≤ 63) (h16 : top % 16 = 0) (hmax : top < 2^64)
    (hfits : frameSize argv envp ≤ top) :
    ∃ argvPtrs envPtrs, Placed mem top (setupUserStack mem top argv envp) argv envp
      argvPtrs envPtrs := by
  simp only [frameSize] at hfits
  rw [setupUserStack_eq]
  simp only [List.take_of_length_le hargv, List.take_of_length_le henvp]
  -- the strings of the environment, then those of the arguments below them
  obtain ⟨esp, ecop, -, eout⟩ := @copyStrings_spec envp ⟨mem, top⟩ (by simp only; omega)
  have eapart := @copyStrings_apart envp ⟨mem, top⟩ (by simp only; omega)
  revert esp ecop eout eapart
  generalize Stack.copyStrings envp ⟨mem, top⟩ = e
  intro esp ecop eout eapart
  simp only at esp ecop eout
  obtain ⟨asp, acop, abytes, aout⟩ := @copyStrings_spec argv e.2 (by omega)
  have aapart := @copyStrings_apart argv e.2 (by omega)
  revert asp acop abytes aout aapart
  generalize Stack.copyStrings argv e.2 = r
  intro asp acop abytes aout aapart
  have hwords : ∀ w ∈ frame r.1 e.1, w < 2^64 := by
    refine frame_lt (by rw [acop.length_eq]; omega) (fun p hp => ?_) fun p hp => ?_
    · have := acop.lt hp
      omega
    · have := ecop.lt hp
      omega
  have hlen := frame_length acop.length_eq ecop.length_eq
  obtain ⟨psp, pwords, pout⟩ := @pushAll_spec (frame r.1 e.1)
    ⟨r.2.mem, r.2.sp / 16 * 16⟩ hwords (by simp only [hlen]; omega)
  revert psp pwords pout
  generalize Stack.pushAll ⟨r.2.mem, r.2.sp / 16 * 16⟩ (frame r.1 e.1) = st
  intro psp pwords pout
  simp only at psp pout
  rw [hlen] at psp
  have hfloor : st.sp + 8 * frameWords argv envp = r.2.sp / 16 * 16 := by omega
  refine ⟨r.1, e.1, by simp only [frameSize]; omega, pwords, ?_, ?_, ?_, fun x hx => ?_, aapart, eapart⟩
  · rw [← esp]
    exact acop.mono (fun x hx _ => pout x (Or.inr (by omega))) (by omega) (Nat.le_refl _)
  · rw [← esp]
    refine ecop.mono (fun x hx _ => ?_) (Nat.le_refl _) (Nat.le_refl _)
    rw [pout x (Or.inr (by omega)), aout x (Or.inr hx)]
  · rw [← esp, ← asp, loadBytes_congr (m := r.2.mem) fun x hx _ => pout x (Or.inr (by omega)), abytes]
  · rw [pout x (by omega), aout x (by omega), eout x (by omega)]

def regions (st : Stack) (argv envp : List CString) (argvPtrs envPtrs : List Nat) :
    List (Nat × Nat) :=
  (st.sp, 8 * (argv.length + envp.length + 3)) ::
    ((argvPtrs.zip argv ++ envPtrs.zip envp).map fun p => (p.1, p.2.bytes.length))

/-- The stack that a program finds: `argc`, the vectors of arguments and environment, and the
strings they lead to, all of it written between the stack pointer and `top`. -/
structure LaidOut (mem : Mem) (top : Nat) (st : Stack) (argv envp : List CString)
    (argvPtrs envPtrs : List Nat) : Prop where
  aligned : st.sp % 16 = 0
  words : WordsAt st.mem st.sp (argv.length :: (argvPtrs ++ 0 :: (envPtrs ++ [0])))
  args : List.Forall₂ (StringAt st.mem) argvPtrs argv
  envs : List.Forall₂ (StringAt st.mem) envPtrs envp
  apart : (regions st argv envp argvPtrs envPtrs).Pairwise fun a b =>
    a.1 + a.2 ≤ b.1 ∨ b.1 + b.2 ≤ a.1
  within : ∀ r ∈ regions st argv envp argvPtrs envPtrs, st.sp ≤ r.1 ∧ r.1 + r.2 ≤ top
  written : ∀ x, x < st.sp ∨ top ≤ x → st.mem x = mem x

theorem Placed.laidOut {mem : Mem} {top : Nat} {st : Stack} {argv envp : List CString}
    {argvPtrs envPtrs : List Nat} (h : Placed mem top st argv envp argvPtrs envPtrs)
    (h16 : top % 16 = 0) : LaidOut mem top st argv envp argvPtrs envPtrs := by
  have hbot := h.bottom
  have hwords : argv.length + envp.length + 3 ≤ frameWords argv envp := Nat.le_add_right _ _
  have heven : frameWords argv envp % 2 = 0 := by
    rw [frameWords]
    omega
  simp only [frameSize] at hbot
  have hmem : ∀ q ∈ argvPtrs.zip argv ++ envPtrs.zip envp,
      st.sp + 8 * (argv.length + envp.length + 3) ≤ q.1 ∧ q.1 + q.2.bytes.length ≤ top := by
    intro q hq
    rcases List.mem_append.mp hq with hq | hq
    · have := (h.args.of_zip hq).2
      omega
    · have := (h.envs.of_zip hq).2
      omega
  refine ⟨by omega, ?_, h.args.imp fun _ _ hp => hp.1, h.envs.imp fun _ _ hp => hp.1, ?_,
    fun r hr => ?_, fun x hx => h.kept x (by omega)⟩
  · have hw := h.words
    have hsplit : frame argvPtrs envPtrs = argv.length :: (argvPtrs ++ 0 :: (envPtrs ++ [0])) ++
        if (argvPtrs.length + envPtrs.length + 3) % 2 ≠ 0 then [0] else [] := by
      simp only [frame, h.args.length_eq, List.cons_append, List.append_assoc, List.nil_append]
    rw [hsplit] at hw
    exact hw.take
  · rw [regions, List.pairwise_cons, List.pairwise_map, List.pairwise_append]
    refine ⟨fun r hr => ?_, h.apart.1.imp Or.inr, h.apart.2.imp Or.inr, fun p hp q hq => Or.inl ?_⟩
    · obtain ⟨q, hq, rfl⟩ := List.mem_map.mp hr
      exact Or.inl (hmem q hq).1
    · have ha := (h.args.of_zip hp).2.2
      have he := (h.envs.of_zip hq).2.1
      exact Nat.le_trans ha he
  · rcases List.mem_cons.mp hr with rfl | hr
    · exact ⟨Nat.le_refl _, by simp only; omega⟩
    · obtain ⟨q, hq, rfl⟩ := List.mem_map.mp hr
      have := hmem q hq
      exact ⟨by simp only; omega, this.2⟩

/-- `setup_user_stack` lays out the stack for every argument vector and environment that fit, below
every aligned address. -/
theorem setupUserStack_laidOut {mem : Mem} {bottom top : Nat} {argv envp : List CString}
    (hargv : argv.length ≤ 63) (henvp : envp.length ≤ 63) (h16 : top % 16 = 0) (hmax : top < 2^64)
    (hfits : bottom + frameSize argv envp ≤ top) :
    bottom ≤ (setupUserStack mem top argv envp).sp ∧
      ∃ argvPtrs envPtrs, LaidOut mem top (setupUserStack mem top argv envp) argv envp
        argvPtrs envPtrs := by
  obtain ⟨argvPtrs, envPtrs, h⟩ := setupUserStack_placed mem hargv henvp h16 hmax (by omega)
  have hbot := h.bottom
  exact ⟨by omega, argvPtrs, envPtrs, h.laidOut h16⟩

/-- `ls` with `A` in its environment, on two pages. -/
theorem setupUserStack_laidOut_ls :
    0x7000 ≤ (setupUserStack (fun _ => 1) 0x9000 [⟨[0x6c, 0x73], by decide⟩]
        [⟨[0x41], by decide⟩]).sp ∧
      ∃ argvPtrs envPtrs, LaidOut (fun _ => 1) 0x9000 (setupUserStack (fun _ => 1) 0x9000
        [⟨[0x6c, 0x73], by decide⟩] [⟨[0x41], by decide⟩]) [⟨[0x6c, 0x73], by decide⟩]
        [⟨[0x41], by decide⟩] argvPtrs envPtrs :=
  setupUserStack_laidOut (by decide) (by decide) (by decide) (by decide) (by decide)

/-- The frame of a program on a new stack: its words, the strings they lead to, and the bytes above
them. -/
structure Framed (st : Stack) (argv envp : List CString) (argvPtrs envPtrs : List Nat) : Prop where
  words : WordsAt st.mem st.sp (frame argvPtrs envPtrs)
  args : Copied st.mem stackBase stackTop argvPtrs argv
  envs : Copied st.mem stackBase stackTop envPtrs envp
  above : envp = [] → argv ≠ [] →
    loadBytes st.mem (st.sp + 8 * (frame argvPtrs envPtrs).length) 8 = aboveFrame argv

theorem loadBytes_take (mem : Mem) (a : Nat) {n k : Nat} (h : n ≤ k) :
    (loadBytes mem a k).take n = loadBytes mem a n := by
  unfold loadBytes
  rw [← List.map_take, List.take_range, Nat.min_eq_left h]

theorem loadBytes_zero {mem : Mem} {a n : Nat} (h : ∀ x, a ≤ x → x < a + n → mem x = 0) :
    loadBytes mem a n = List.replicate n 0 := by
  refine List.ext_getElem (by simp [loadBytes]) fun i h1 h2 => ?_
  simp only [loadBytes, List.getElem_map, List.getElem_range, List.getElem_replicate]
  rw [List.length_replicate] at h2
  exact h (a + i) (by omega) (by omega)

/-- The gap is as it was, the strings of the arguments stand above it. -/
theorem Placed.above {mem : Mem} {top : Nat} {st : Stack} {argv : List CString}
    {argvPtrs envPtrs : List Nat} (h : Placed mem top st argv [] argvPtrs envPtrs)
    (h16 : top % 16 = 0) (hargv : argv ≠ []) (hmem : ∀ x, st.sp ≤ x → x < top → mem x = 0) :
    loadBytes st.mem (st.sp + 8 * frameWords argv []) 8 = aboveFrame argv := by
  have hpos : 0 < (stringBytes argv).length := by
    obtain ⟨s, ss, rfl⟩ := List.exists_cons_of_ne_nil hargv
    simp [stringBytes_cons, CString.bytes]
  have hnil : (stringBytes []).length = 0 := rfl
  have hbot := h.bottom
  have hbytes := h.below
  have hkept := h.kept
  simp only [frameSize, hnil, Nat.add_zero, Nat.sub_zero] at hbot hbytes hkept
  generalize hlow : st.sp + 8 * frameWords argv [] = low at *
  have hgap : low + alignGap argv = top - (stringBytes argv).length := by
    rw [alignGap]
    omega
  have hzero : loadBytes st.mem low (alignGap argv) = List.replicate (alignGap argv) 0 := by
    refine loadBytes_zero fun x hx hx' => ?_
    rw [hkept x (by omega)]
    exact hmem x (by omega) (by omega)
  have hround : 8 ≤ alignGap argv + (stringBytes argv).length := by
    rw [alignGap]
    omega
  rw [aboveFrame, ← loadBytes_take _ _ hround, loadBytes_add, hzero, hgap, hbytes]

variable {st : Stack} {argv : List CString} {argvPtrs envPtrs : List Nat}

/-- The registers at the call of `main`. -/
theorem Framed.start {envp : List CString} (h : Framed st argv envp argvPtrs envPtrs) :
    crtStart st = ⟨argv.length, st.sp + 8, st.sp + 8 + 8 * (argv.length + 2)⟩ := by
  simp only [crtStart, h.words.1, h.args.length_eq, MainArgs.mk.injEq, true_and]
  omega

theorem Framed.tail {envp : List CString} (h : Framed st argv envp argvPtrs envPtrs) :
    WordsAt st.mem (st.sp + 8 + 8 * argv.length + 8) (envPtrs ++
      0 :: (if (argv.length + envPtrs.length + 3) % 2 ≠ 0 then [0] else [])) := by
  have htail := h.words.2.append
  rw [h.args.length_eq] at htail
  exact htail.2

end frame

end LosTacOS.Mm
