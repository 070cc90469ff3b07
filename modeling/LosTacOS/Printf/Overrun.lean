import LosTacOS.Printf.LibText

/-! `printf` of the library: what it hands to the kernel, and when `vsnprintf` stays inside its
arrays. -/
namespace LosTacOS.Printf

open Emit

/-- What `printf` leaves in its buffer, and how many bytes from its start it hands to `SYS_WRITE`. -/
structure Printed where
  buf : List UInt8
  handed : Option Nat
  result : Int

/-- `printf`, with what its buffer of 1024 bytes holds before. -/
def printf (buf fmt : List UInt8) (args : VaList) : Option Printed :=
  (vsnprintf buf 0 1024 fmt args).map fun (buf, len) =>
    ⟨buf, if 0 < len then some len.toNat else none, len⟩

def Hands (fmt : List UInt8) (args : VaList) : Prop :=
  ∀ buf : List UInt8, buf.length = 1024 → ∃ out, printf buf fmt args = some out ∧
    ∀ n, out.handed = some n → n ≤ 1024 ∧ out.buf.take n <+: libWhole fmt args

/-- Every store of `vsnprintf` lies inside `buf[0..size)` or a local array. -/
def Contained (fmt : List UInt8) (args : VaList) : Prop :=
  ∀ before buf after : List UInt8, ∃ buf' r, buf'.length = buf.length ∧
    vsnprintf (before ++ buf ++ after) before.length buf.length fmt args =
      some (before ++ buf' ++ after, r)

variable {fmt : List UInt8} {args : VaList}

theorem vsnprintf_eq (h : FormatFits fmt args) (mem : List UInt8) (base size : Nat) :
    vsnprintf mem base size fmt args =
      (putAll snPutc (some ⟨mem, base, size, 0⟩) (libWhole fmt args)).bind terminate := by
  rw [vsnprintf, libFormat_eq snPutc _ fmt args h, Option.bind_some]

theorem vsnprintf_none (h : ¬ FormatFits fmt args) (mem : List UInt8) (base size : Nat) :
    vsnprintf mem base size fmt args = none := by
  rw [vsnprintf, libFormat_none snPutc _ fmt args h]
  rfl

theorem contained_iff : Contained fmt args ↔ FormatFits fmt args := by
  constructor
  · intro h
    by_contra hfits
    obtain ⟨buf', r, -, heq⟩ := h [] [] []
    rw [vsnprintf_none hfits] at heq
    cases heq
  · intro h before buf after
    obtain ⟨buf', heq, hlen, -⟩ := terminate_into (libWhole fmt args) before buf after
    exact ⟨buf', _, hlen, (vsnprintf_eq h _ _ _).trans heq⟩

theorem cInt_le (n : Nat) : cInt n ≤ n := by
  unfold cInt
  rw [Int.bmod_def]
  push_cast
  split_ifs <;> omega

/-- The part of a text of at least 1024 bytes that `printf` holds, with the NUL. -/
theorem whole_prefix_iff {t : List UInt8} (h : 1024 ≤ t.length) :
    t.take 1023 ++ [0] <+: t ↔ t[1023]? = some 0 := by
  have hlt : 1023 < t.length := by omega
  constructor
  · intro hpre
    obtain ⟨rest, hrest⟩ := hpre
    have hmin : min 1023 t.length = 1023 := Nat.min_eq_left hlt.le
    rw [← hrest]
    simp [hmin]
  · intro hget
    have htake : t.take 1024 = t.take 1023 ++ [0] := by
      rw [List.take_add_one, hget]
      rfl
    exact htake ▸ List.take_prefix 1024 t

/-- What the number of bytes handed over means for the text. -/
theorem handed_right_iff {t buf : List UInt8} (hlen : buf.length = 1024)
    (hbuf : t.take 1023 ++ [0] <+: buf) :
    (0 < cInt t.length → (cInt t.length).toNat ≤ 1024 ∧ buf.take (cInt t.length).toNat <+: t) ↔
      cInt t.length ≤ 1023 ∨ cInt t.length = 1024 ∧ t[1023]? = some 0 := by
  have hle := cInt_le t.length
  generalize hn : cInt t.length = n at hle ⊢
  obtain ⟨rest, rfl⟩ := hbuf
  constructor
  · intro h
    by_cases hsmall : n ≤ 1023
    · exact .inl hsmall
    obtain ⟨h1, h2⟩ := h (by omega)
    have hn' : n = 1024 := by omega
    have htlen : (t.take 1023 ++ [0]).length = 1024 := by simp; omega
    have hrest : rest = [] := by
      apply List.eq_nil_of_length_eq_zero
      simp only [List.length_append] at hlen htlen
      omega
    rw [hrest, List.append_nil, List.take_of_length_le (by omega)] at h2
    exact .inr ⟨hn', (whole_prefix_iff (by omega)).mp h2⟩
  · rintro (hsmall | ⟨rfl, hget⟩) hpos
    · refine ⟨by omega, ?_⟩
      have hm : n.toNat ≤ (t.take 1023).length := by simp; omega
      rw [List.append_assoc, List.take_append_of_le_length hm, List.take_take]
      exact List.take_prefix _ t
    · have htlen : (t.take 1023 ++ [0]).length = 1024 := by simp; omega
      refine ⟨by decide, ?_⟩
      rw [List.take_append_of_le_length (by rw [htlen]; decide),
        List.take_of_length_le (by rw [htlen]; decide)]
      exact (whole_prefix_iff (by omega)).mpr hget

theorem hands_iff (h : FormatFits fmt args) :
    Hands fmt args ↔ cInt (libWhole fmt args).length ≤ 1023 ∨
      cInt (libWhole fmt args).length = 1024 ∧ (libWhole fmt args)[1023]? = some 0 := by
  have hout : ∀ buf : List UInt8, buf.length = 1024 → ∃ buf', buf'.length = 1024 ∧
      (libWhole fmt args).take 1023 ++ [0] <+: buf' ∧
      printf buf fmt args = some ⟨buf', if 0 < cInt (libWhole fmt args).length then
        some (cInt (libWhole fmt args).length).toNat else none, cInt (libWhole fmt args).length⟩ := by
    intro buf hbuf
    have hne : buf ≠ [] := by
      rintro rfl
      cases hbuf
    obtain ⟨buf', heq, hlen, hpre⟩ := terminate_into (libWhole fmt args) [] buf []
    rw [List.nil_append, List.append_nil, List.nil_append, List.append_nil, List.length_nil,
      hbuf] at heq
    rw [hbuf] at hlen hpre
    refine ⟨buf', hlen, hpre hne, ?_⟩
    rw [printf, vsnprintf_eq h, heq]
    rfl
  constructor
  · intro hh
    obtain ⟨buf, hbuf⟩ : ∃ buf : List UInt8, buf.length = 1024 :=
      ⟨List.replicate 1024 0, List.length_replicate⟩
    obtain ⟨buf', hlen, hpre, hprint⟩ := hout buf hbuf
    obtain ⟨out, ho, hright⟩ := hh buf hbuf
    rw [hprint, Option.some.injEq] at ho
    subst ho
    refine (handed_right_iff hlen hpre).mp fun hpos => ?_
    apply hright
    dsimp only
    rw [if_pos hpos]
  · intro hc buf hbuf
    obtain ⟨buf', hlen, hpre, hprint⟩ := hout buf hbuf
    refine ⟨_, hprint, fun n hn => ?_⟩
    dsimp only at hn ⊢
    split_ifs at hn with hpos
    obtain rfl := Option.some.inj hn
    exact (handed_right_iff hlen hpre).mpr hc hpos

/-- `printf` and `vsnprintf` stay in bounds exactly where every `%f` has at most 128 characters and
the length of the text, as an `int`, is below the size of the buffer. -/
theorem printf_contained_iff (fmt : List UInt8) (args : VaList) :
    Hands fmt args ∧ Contained fmt args ↔ FormatFits fmt args ∧
      (cInt (libWhole fmt args).length ≤ 1023 ∨
        cInt (libWhole fmt args).length = 1024 ∧ (libWhole fmt args)[1023]? = some 0) := by
  rw [contained_iff, and_comm]
  exact and_congr_right fun h => hands_iff h

/-- A field of 2000 characters makes `printf` hand over 976 bytes from behind its buffer. -/
theorem wide_field_overruns : ¬ ∀ fmt args, Hands fmt args ∧ Contained fmt args := by
  intro H
  obtain ⟨hhands, hcontained⟩ := H ("%2000d".toList.map Char.toUInt8) ⟨[⟨7, []⟩], []⟩
  have h := (hands_iff (contained_iff.mp hcontained)).mp hhands
  have hlen : cInt (libWhole ("%2000d".toList.map Char.toUInt8) ⟨[⟨7, []⟩], []⟩).length = 2000 := by
    decide +kernel
  rw [hlen] at h
  rcases h with h | ⟨h, -⟩
  · exact absurd h (by decide)
  · exact absurd h (by decide)

/-- Two hundred digits after the point do not fit into `tmp`. -/
theorem long_fraction_overruns :
    ¬ Contained ("%.200f".toList.map Char.toUInt8) ⟨[], [.finite false 0 fun _ => 0]⟩ := by
  have hpieces : libScanner.pieces ("%.200f".toList.map Char.toUInt8) =
      [.inr (.directive ⟨⟨false, false⟩, .lit 0, some (.lit 200), .int⟩ (some 'f'.toUInt8))] := by
    decide +kernel
  rw [contained_iff, FormatFits, hpieces]
  rintro ⟨hfits, -⟩
  have h : Double.Fits 200 (.finite false 0 fun _ => 0) := hfits .f (by decide)
  unfold Double.Fits at h
  revert h
  decide

end LosTacOS.Printf
