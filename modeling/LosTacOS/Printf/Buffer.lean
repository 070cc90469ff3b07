import LosTacOS.Printf.Kernel
import Mathlib.Data.List.Induction

/-! The buffer that both the kernel's and the library's formatter fill, and `kvsnprintf`. -/
namespace LosTacOS.Printf

open Emit

def store (mem : List UInt8) (i : Nat) (c : UInt8) : Option (List UInt8) :=
  if i < mem.length then some (mem.set i c) else none

/-- `SnBuf`: `buf` points to the place `base` of `mem`. The position counts what was handed over one
character at a time and does not wrap. -/
structure SnBuf where
  mem : List UInt8
  base : Nat
  size : Nat
  pos : Nat
deriving DecidableEq

def snPutc (sb : Option SnBuf) (c : UInt8) : Option SnBuf :=
  sb.bind fun sb =>
    if sb.pos + 1 < sb.size then
      (store sb.mem (sb.base + sb.pos) c).map fun mem => { sb with mem := mem, pos := sb.pos + 1 }
    else some { sb with pos := sb.pos + 1 }

/-- The end of both formatters: the NUL and the length as an `int`. -/
def terminate (sb : SnBuf) : Option (List UInt8 × Int) :=
  if 0 < sb.size then
    (store sb.mem (sb.base + if sb.pos < sb.size then sb.pos else sb.size - 1) 0).map
      fun mem => (mem, cInt sb.pos)
  else some (sb.mem, cInt sb.pos)

/-- `kvsnprintf(buf, size, fmt, args)`: the memory afterwards and the result. -/
def kvsnprintf (mem : List UInt8) (base size : Nat) (fmt : List UInt8) (args : List Arg) :
    Option (List UInt8 × Int) :=
  (snFormat snPutc (some ⟨mem, base, size, 0⟩) fmt args).bind terminate

section splice

variable {mem : List UInt8} {base size : Nat}

/-- The memory with a text in place of what is at `base`. -/
def splice (mem : List UInt8) (base : Nat) (ts : List UInt8) : List UInt8 :=
  mem.take base ++ ts ++ mem.drop (base + ts.length)

def Fits (mem : List UInt8) (base : Nat) (ts : List UInt8) : Prop :=
  ts = [] ∨ base + ts.length ≤ mem.length

instance (ts : List UInt8) : Decidable (Fits mem base ts) :=
  inferInstanceAs (Decidable (_ ∨ _))

@[simp] theorem splice_nil : splice mem base [] = mem := by simp [splice]

theorem splice_length {ts : List UInt8} (h : Fits mem base ts) :
    (splice mem base ts).length = mem.length := by
  rcases h with rfl | h
  · simp
  · simp [splice]
    omega

theorem splice_snoc {ts : List UInt8} (h : Fits mem base ts) (c : UInt8) :
    store (splice mem base ts) (base + ts.length) c =
      if Fits mem base (ts ++ [c]) then some (splice mem base (ts ++ [c])) else none := by
  unfold store
  rw [splice_length h]
  have hiff : Fits mem base (ts ++ [c]) ↔ base + ts.length < mem.length := by simp [Fits]; omega
  by_cases hlt : base + ts.length < mem.length
  · rw [if_pos hlt, if_pos (hiff.mpr hlt)]
    have hdrop : mem.drop (base + ts.length) =
        mem[base + ts.length] :: mem.drop (base + ts.length + 1) := List.drop_eq_getElem_cons hlt
    have htake : (mem.take base).length = base := by simp; omega
    simp [splice, hdrop, htake, Nat.add_assoc]
  · rw [if_neg hlt, if_neg fun hf => hlt (hiff.mp hf)]

theorem Fits.of_snoc {ts : List UInt8} {c : UInt8} (h : Fits mem base (ts ++ [c])) :
    Fits mem base ts := by
  simp only [Fits, List.append_eq_nil_iff, List.cons_ne_self, and_false, List.length_append,
    List.length_singleton, false_or] at h ⊢
  omega

/-- What is stored of a text, and where the position is then. -/
theorem putAll_snPutc (t : List UInt8) :
    putAll snPutc (some ⟨mem, base, size, 0⟩) t =
      if Fits mem base (t.take (size - 1)) then
        some ⟨splice mem base (t.take (size - 1)), base, size, t.length⟩
      else none := by
  induction t using List.reverseRecOn with
  | nil => simp [Fits]
  | append_singleton t c ih =>
    rw [putAll_append, ih]
    by_cases hroom : t.length + 1 < size
    · have htake : t.take (size - 1) = t := List.take_of_length_le (by omega)
      have htake' : (t ++ [c]).take (size - 1) = t ++ [c] :=
        List.take_of_length_le (by simp; omega)
      rw [htake, htake']
      by_cases hfits : Fits mem base t
      · simp only [if_pos hfits, putAll, List.foldl_cons, List.foldl_nil, snPutc,
          Option.bind_some, if_pos hroom, splice_snoc hfits]
        by_cases hsnoc : Fits mem base (t ++ [c])
        · simp [hsnoc]
        · simp [hsnoc]
      · rw [if_neg hfits, if_neg fun h => hfits h.of_snoc]
        rfl
    · have htake : (t ++ [c]).take (size - 1) = t.take (size - 1) :=
        List.take_append_of_le_length (by omega)
      rw [htake]
      by_cases hfits : Fits mem base (t.take (size - 1))
      · simp [hfits, putAll, snPutc, hroom]
      · simp [hfits, putAll, snPutc]

/-- What a formatter that hands over `t` leaves behind. -/
theorem putAll_terminate (t : List UInt8) :
    (putAll snPutc (some ⟨mem, base, size, 0⟩) t).bind terminate =
      if size = 0 then some (mem, cInt t.length)
      else if Fits mem base (t.take (size - 1) ++ [0]) then
        some (splice mem base (t.take (size - 1) ++ [0]), cInt t.length)
      else none := by
  rw [putAll_snPutc]
  by_cases hsize : size = 0
  · simp [hsize, Fits, terminate]
  rw [if_neg hsize]
  by_cases hfits : Fits mem base (t.take (size - 1))
  · have hpos : (if t.length < size then t.length else size - 1) =
        (t.take (size - 1)).length := by
      rw [List.length_take]
      split_ifs <;> omega
    rw [if_pos hfits, Option.bind_some, terminate, if_pos (Nat.pos_of_ne_zero hsize)]
    dsimp only
    rw [hpos, splice_snoc hfits]
    by_cases hsnoc : Fits mem base (t.take (size - 1) ++ [0])
    · simp [hsnoc]
    · simp [hsnoc]
  · rw [if_neg hfits, if_neg fun h => hfits h.of_snoc]
    rfl

theorem splice_into {before buf after ts : List UInt8} (h : ts.length ≤ buf.length) :
    splice (before ++ buf ++ after) before.length ts = before ++ splice buf 0 ts ++ after := by
  have hbuf : (buf ++ after).drop ts.length = buf.drop ts.length ++ after := by
    rw [List.drop_append_of_le_length h]
  simp [splice, ← List.drop_drop, hbuf]

/-- The same into a buffer of `buf.length` bytes between other memory. -/
theorem putAll_into (before buf after t : List UInt8) :
    (putAll snPutc (some ⟨before ++ buf ++ after, before.length, buf.length, 0⟩) t).bind terminate =
      some (before ++ (if buf = [] then []
        else splice buf 0 (t.take (buf.length - 1) ++ [0])) ++ after, cInt t.length) := by
  rw [putAll_terminate]
  by_cases hbuf : buf = []
  · simp [hbuf]
  have hlen : 0 < buf.length := List.length_pos_of_ne_nil hbuf
  have hfits : Fits (before ++ buf ++ after) before.length (t.take (buf.length - 1) ++ [0]) := by
    right
    simp only [List.length_append, List.length_take, List.length_singleton]
    omega
  have hle : (t.take (buf.length - 1) ++ [0]).length ≤ buf.length := by
    simp only [List.length_append, List.length_take, List.length_singleton]
    omega
  rw [if_neg hlen.ne', if_pos hfits, if_neg hbuf, splice_into hle]

end splice

section truncation

variable (fmt : List UInt8) (args : List Arg)

theorem kvsnprintf_eq (mem : List UInt8) (base size : Nat) :
    kvsnprintf mem base size fmt args =
      (putAll snPutc (some ⟨mem, base, size, 0⟩) (full fmt args)).bind terminate := by
  rw [kvsnprintf, snFormat_full]

def cString (buf : List UInt8) : List UInt8 := buf.takeWhile (· ≠ 0)

theorem cString_of_nul {t buf : List UInt8} (h : t ++ [0] <+: buf) : cString buf = cString t := by
  obtain ⟨rest, rfl⟩ := h
  induction t with
  | nil => simp [cString]
  | cons c t ih =>
    simp only [cString, List.cons_append, List.takeWhile_cons] at ih ⊢
    split_ifs
    · rw [ih]
    · rfl

theorem cString_mono {t t' : List UInt8} (h : t <+: t') : cString t <+: cString t' := by
  obtain ⟨rest, rfl⟩ := h
  induction t with
  | nil => simp [cString]
  | cons c t ih =>
    simp only [cString, List.cons_append, List.takeWhile_cons] at ih ⊢
    split_ifs
    · exact List.prefix_cons_inj c |>.mpr ih
    · exact List.prefix_rfl

/-- One buffer: only its own bytes change, and it holds the beginning of the text. -/
theorem terminate_into (t before buf after : List UInt8) :
    ∃ buf', (putAll snPutc (some ⟨before ++ buf ++ after, before.length, buf.length, 0⟩) t).bind
        terminate = some (before ++ buf' ++ after, cInt t.length) ∧
      buf'.length = buf.length ∧ (buf ≠ [] → t.take (buf.length - 1) ++ [0] <+: buf') := by
  refine ⟨_, putAll_into before buf after t, ?_, ?_⟩
  · by_cases hbuf : buf = []
    · simp [hbuf]
    · have hlen : 0 < buf.length := List.length_pos_of_ne_nil hbuf
      rw [if_neg hbuf]
      apply splice_length
      right
      simp only [List.length_append, List.length_take, List.length_singleton]
      omega
  · intro hbuf
    rw [if_neg hbuf]
    simp [splice]

theorem kvsnprintf_into (before buf after : List UInt8) :
    ∃ buf', kvsnprintf (before ++ buf ++ after) before.length buf.length fmt args =
        some (before ++ buf' ++ after, cInt (full fmt args).length) ∧
      buf'.length = buf.length ∧
      (buf ≠ [] → (full fmt args).take (buf.length - 1) ++ [0] <+: buf') := by
  rw [kvsnprintf_eq]
  exact terminate_into _ before buf after

/-- The law of truncation, for every format, argument list and buffer. -/
theorem kvsnprintf_truncates (before buf after : List UInt8) :
    (∃ buf', kvsnprintf (before ++ buf ++ after) before.length buf.length fmt args =
        some (before ++ buf' ++ after, cInt (full fmt args).length) ∧
      buf'.length = buf.length ∧
      (buf ≠ [] → (full fmt args).take (buf.length - 1) ++ [0] <+: buf')) ∧
    ∀ small large small' large' : List UInt8, ∀ r r' : Int, small ≠ [] →
      small.length ≤ large.length →
      kvsnprintf small 0 small.length fmt args = some (small', r) →
      kvsnprintf large 0 large.length fmt args = some (large', r') →
      cString small' <+: cString large' := by
  refine ⟨kvsnprintf_into fmt args before buf after, ?_⟩
  intro small large small' large' r r' hne hle hsmall hlarge
  have hne' : large ≠ [] := by
    rintro rfl
    exact hne (List.length_eq_zero_iff.mp (Nat.le_zero.mp hle))
  obtain ⟨b, hb, -, hpre⟩ := kvsnprintf_into fmt args [] small []
  obtain ⟨b', hb', -, hpre'⟩ := kvsnprintf_into fmt args [] large []
  simp only [List.nil_append, List.append_nil, List.length_nil] at hb hb'
  obtain rfl : small' = b := congrArg Prod.fst (Option.some.inj (hsmall.symm.trans hb))
  obtain rfl : large' = b' := congrArg Prod.fst (Option.some.inj (hlarge.symm.trans hb'))
  rw [cString_of_nul (hpre hne), cString_of_nul (hpre' hne')]
  exact cString_mono (List.take_prefix_take_left (by omega))

end truncation

end LosTacOS.Printf
