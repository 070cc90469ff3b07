import LosTacOS.Gzip.Deflate

/-! What `get_bits` reads: the bits of the input one after the other, and zeros behind them. -/
namespace LosTacOS.Gzip

open BitStream

variable {src : Input} {s s' s'' : State} {c d n : Nat}

/-- The buffer holds the bits from `c` on up to the bytes that were taken, with `d` bytes of zeros
from behind the end of the input. -/
structure Buffers (src : Input) (s : State) (c d : Nat) : Prop where
  place : c + s.bitcnt = 8 * (s.inPos + d)
  dry : 0 < d → s.inPos = src.inLen
  inside : s.inPos ≤ src.inLen
  buffer : s.bitbuf = lowFirst (bitsOf src) c s.bitcnt

/-- The bits up to `c` have been read, and less than a byte is in the buffer. -/
def At (src : Input) (s : State) (c : Nat) : Prop := s.bitcnt < 8 ∧ ∃ d, Buffers src s c d

/-- Reading bits writes nothing, and it is an access out of range when it goes on behind the bytes
that were passed. -/
structure Advances (src : Input) (s s' : State) : Prop where
  out : s'.out = s.out
  forth : s.inPos ≤ s'.inPos
  overrun : s'.overread = true ↔ s.overread = true ∨ s.inPos < s'.inPos ∧ src.given < s'.inPos

theorem Advances.refl (src : Input) (s : State) : Advances src s s := ⟨rfl, Nat.le_refl _, by simp⟩

theorem Advances.trans (h : Advances src s s') (h' : Advances src s' s'') : Advances src s s'' where
  out := h'.out.trans h.out
  forth := Nat.le_trans h.forth h'.forth
  overrun := by
    have := h.forth
    have := h'.forth
    rw [h'.overrun, h.overrun, or_assoc]
    refine or_congr_right ⟨?_, ?_⟩ <;> omega

structure Reads (src : Input) (s s' : State) : Prop extends Advances src s s' where
  stray : s'.stray = s.stray

theorem Reads.refl (src : Input) (s : State) : Reads src s s := ⟨.refl src s, rfl⟩

theorem Reads.trans (h : Reads src s s') (h' : Reads src s' s'') : Reads src s s'' :=
  ⟨h.toAdvances.trans h'.toAdvances, h'.stray.trans h.stray⟩

section fetch

/-- A byte of the input comes behind what the buffer has, or one of zeros. -/
theorem Buffers.fetch (h : Buffers src s c d) :
    ∃ d', Buffers src (fetch src s) c d' ∧ (fetch src s).bitcnt = s.bitcnt + 8 ∧
      Reads src s (fetch src s) := by
  have hplace := h.place
  unfold Gzip.fetch
  by_cases hin : s.inPos < src.inLen
  · rw [if_pos hin]
    have hd : d = 0 := by
      by_contra hd
      have := h.dry (Nat.pos_of_ne_zero hd)
      omega
    refine ⟨0, ⟨?_, nofun, hin, ?_⟩, rfl, ⟨rfl, Nat.le_succ _, ?_⟩, rfl⟩
    · dsimp only
      omega
    · -- the new byte lies above the bits in the buffer
      have hbyte : c + s.bitcnt = 8 * s.inPos := by omega
      dsimp only
      rw [h.buffer, lowFirst_add, hbyte, bitsOf, lowFirst_byte hin, Nat.or_comm,
        ← Nat.shiftLeft_add_eq_or_of_lt (lowFirst_lt ..), Nat.shiftLeft_eq, Nat.add_comm,
        Nat.mul_comm]
    · change (s.overread || decide (src.given ≤ s.inPos)) = true ↔ _
      rw [Bool.or_eq_true, decide_eq_true_eq]
      exact or_congr_right ⟨fun hg => ⟨Nat.lt_succ_self _, Nat.lt_succ_of_le hg⟩,
        fun hg => Nat.le_of_lt_succ hg.2⟩
  · rw [if_neg hin]
    have hend : s.inPos = src.inLen := by
      have := h.inside
      omega
    refine ⟨d + 1, ⟨?_, fun _ => hend, h.inside, ?_⟩, rfl, ⟨rfl, Nat.le_refl _, by simp⟩,
      rfl⟩
    · dsimp only
      omega
    · dsimp only
      rw [h.buffer, lowFirst_add]
      have hzero : lowFirst (bitsOf src) (c + s.bitcnt) 8 = 0 :=
        lowFirst_zero fun j _ => ofBytes_behind (by omega)
      rw [hzero, Nat.mul_zero, Nat.add_zero]

theorem Buffers.fill (h : Buffers src s c d) (hsmall : s.bitcnt < 8) (hn : n ≤ 16) :
    ∃ d', Buffers src (fill src n 2 s) c d' ∧ n ≤ (fill src n 2 s).bitcnt ∧
      (fill src n 2 s).bitcnt < n + 8 ∧ Reads src s (fill src n 2 s) := by
  unfold Gzip.fill
  by_cases h1 : s.bitcnt < n
  · rw [if_pos h1]
    obtain ⟨d1, hb1, hc1, hr1⟩ := h.fetch
    unfold Gzip.fill
    by_cases h2 : (Gzip.fetch src s).bitcnt < n
    · rw [if_pos h2]
      obtain ⟨d2, hb2, hc2, hr2⟩ := hb1.fetch
      exact ⟨d2, hb2, by rw [Gzip.fill]; omega, by rw [Gzip.fill]; omega, hr1.trans hr2⟩
    · rw [if_neg h2]
      exact ⟨d1, hb1, by omega, by omega, hr1⟩
  · rw [if_neg h1]
    exact ⟨d, h, by omega, by omega, .refl src s⟩

end fetch

/-- `get_bits` returns the next bits. -/
theorem At.getBits (h : At src s c) (hn : n ≤ 16) :
    (getBits src n s).1 = lowFirst (bitsOf src) c n ∧ At src (getBits src n s).2 (c + n) ∧
      Reads src s (getBits src n s).2 := by
  obtain ⟨hsmall, d, hb⟩ := h
  obtain ⟨d', hb', hle, hlt, hr⟩ := hb.fill hsmall hn
  unfold Gzip.getBits
  generalize fill src n 2 s = t at hb' hle hlt hr
  have hplace := hb'.place
  refine ⟨?_, ⟨?_, d', ?_, hb'.dry, hb'.inside, ?_⟩, ⟨hr.out, hr.forth, hr.overrun⟩, hr.stray⟩
  · dsimp only
    rw [Nat.one_shiftLeft, Nat.and_two_pow_sub_one_eq_mod, hb'.buffer, lowFirst_mod hle]
  · dsimp only
    omega
  · dsimp only
    omega
  · dsimp only
    rw [Nat.shiftRight_eq_div_pow, hb'.buffer, lowFirst_div hle]

theorem At.touch {i : Int} (h : At src s c) (n : Nat) : At src (s.touch i n) c :=
  ⟨h.1, h.2.imp fun _ hb => ⟨hb.place, hb.dry, hb.inside, hb.buffer⟩⟩

theorem touch_inside {i : Int} (h0 : 0 ≤ i) (hn : i < n) : s.touch i n = s := by
  have hin : (0 ≤ i && i < n) = true := by simp [h0, hn]
  unfold State.touch
  rw [hin, Bool.not_true, Bool.or_false]

/-- The bytes that have been taken are those of the bits that have been read. -/
theorem At.inPos_eq (h : At src s c) : s.inPos = min src.inLen ((c + 7) / 8) := by
  obtain ⟨hsmall, d, hb⟩ := h
  have := hb.place
  have := hb.inside
  by_cases hd : 0 < d
  · have := hb.dry hd
    omega
  · omega

end LosTacOS.Gzip
