import Mathlib.Tactic

/-! The timer. It counts the interrupts of the PIT, and four interfaces turn the count into a time,
each with a factor of its own: `get_uptime_ms` divides by a frequency that `init` does not set, the
system calls take a tick for a millisecond. -/
namespace LosTacOS.Drivers

structure Timer where
  counter : UInt64
  frequency : UInt32
deriving DecidableEq

namespace Timer

def zero : Timer := ⟨0, 100⟩

/-- `init`: the bytes it writes to its ports. A frequency of zero is a division by zero. -/
def init (t : Timer) (freq : UInt32) : Option (Timer × List (Nat × UInt8)) :=
  if freq = 0 then none
  else
    let divisor := 1193182 / freq
    some (t, [(0x43, 0x36), (0x40, (divisor &&& 0xff).toUInt8),
      (0x40, ((divisor >>> 8) &&& 0xff).toUInt8)])

def getUptimeMs (t : Timer) : UInt64 := t.counter * 1000 / t.frequency.toUInt64

def tick (t : Timer) : Timer := { t with counter := t.counter + 1 }

def ticks (t : Timer) : UInt64 := t.counter

def waitTicks (t : Timer) (ms : UInt64) : UInt64 := ms * t.frequency.toUInt64 / 1000

/-- The loop of `sleep`. Each `hlt` ends after some ticks, after none if another interrupt ends it;
without a further one the call has not returned. -/
def sleepFrom (start wait : UInt64) : List Nat → Timer → Option Timer
  | wakes, t =>
    if t.counter - start < wait then
      match wakes with
      | [] => none
      | n :: wakes => sleepFrom start wait wakes (tick^[n] t)
    else some t

def sleep (t : Timer) (ms : UInt64) (wakes : List Nat) : Option Timer :=
  sleepFrom t.counter (t.waitTicks ms) wakes t

def sysGettimeofday (t : Timer) : UInt64 × UInt64 :=
  let ms := t.ticks
  (ms / 1000, ms % 1000 * 1000)

def sysTime (t : Timer) : UInt64 := t.ticks / 1000

/-- What `sys_poll` compares with its timeout, when it has started at `start`. -/
def elapsed (start t : Timer) : UInt64 := t.ticks - start.ticks

def timeOfDayMs (t : Timer) : Nat :=
  t.sysGettimeofday.1.toNat * 1000 + t.sysGettimeofday.2.toNat / 1000

@[simp] theorem iterate_frequency (t : Timer) (k : Nat) :
    (tick^[k] t).frequency = t.frequency := by
  induction k generalizing t with
  | zero => rfl
  | succ k ih => rw [Function.iterate_succ_apply, ih, tick]

theorem iterate_counter (t : Timer) (k : Nat) :
    (tick^[k] t).counter = t.counter + UInt64.ofNat k := by
  induction k with
  | zero => simp
  | succ k ih =>
    rw [Function.iterate_succ_apply', tick, ih]
    rw [UInt64.ofNat_add, UInt64.add_assoc]
    rfl

/-- The count after `k` ticks from the start, while it fits. -/
theorem counted {k : Nat} (h : k < 2^64) : (tick^[k] zero).counter.toNat = k := by
  rw [iterate_counter, zero]
  simpa using Nat.mod_eq_of_lt h

theorem timeOfDayMs_eq (t : Timer) : t.timeOfDayMs = t.counter.toNat := by
  have hlt : t.counter.toNat % 1000 * 1000 < 2^64 := by omega
  have husec : (t.counter % 1000 * 1000).toNat = t.counter.toNat % 1000 * 1000 := by
    rw [UInt64.toNat_mul, UInt64.toNat_mod]
    exact Nat.mod_eq_of_lt hlt
  simp only [timeOfDayMs, sysGettimeofday, ticks, husec, UInt64.toNat_div]
  have hthousand : (1000 : UInt64).toNat = 1000 := rfl
  rw [hthousand]
  omega

theorem uptimeMs_eq {k : Nat} (h : k * 1000 < 2^64) :
    (tick^[k] zero).getUptimeMs.toNat = k * 10 := by
  have hc : (tick^[k] zero).counter.toNat = k := counted (by omega)
  have hf : ((tick^[k] zero).frequency.toUInt64).toNat = 100 := by
    rw [iterate_frequency]
    rfl
  have hmul : ((tick^[k] zero).counter * 1000).toNat = k * 1000 := by
    rw [UInt64.toNat_mul, hc]
    exact Nat.mod_eq_of_lt h
  rw [getUptimeMs, UInt64.toNat_div, hmul, hf]
  omega

/-- `get_uptime_ms` is right for one frequency only, the one it is initialised with. -/
theorem uptime_right_iff (freq : UInt32) :
    (∀ k, k * 1000 < 2^64 → (tick^[k] zero).getUptimeMs.toNat = k * 1000 / freq.toNat) ↔
      freq.toNat = 100 := by
  constructor
  · intro h
    have hthousand := h 1000 (by norm_num)
    rw [uptimeMs_eq (by norm_num)] at hthousand
    have hpos : 0 < freq.toNat := by
      apply Nat.pos_of_ne_zero
      intro hzero
      simp [hzero] at hthousand
    have hle := (Nat.le_div_iff_mul_le hpos).mp hthousand.le
    have hlt := (Nat.div_lt_iff_lt_mul hpos).mp (Nat.lt_succ_of_le hthousand.ge)
    omega
  · intro h k hk
    rw [uptimeMs_eq hk, h]
    omega

/-- An interface that takes a tick for a millisecond is right at 1000 Hz only. -/
theorem tick_is_ms_iff (freq : UInt32) :
    (∀ k, k * 1000 < 2^64 → k = k * 1000 / freq.toNat) ↔ freq.toNat = 1000 := by
  constructor
  · intro h
    have hbig := h 10000000 (by norm_num)
    have hpos : 0 < freq.toNat := by
      apply Nat.pos_of_ne_zero
      intro hzero
      simp [hzero] at hbig
    have hle := (Nat.le_div_iff_mul_le hpos).mp hbig.le
    have hlt := (Nat.div_lt_iff_lt_mul hpos).mp (Nat.lt_succ_of_le hbig.ge)
    omega
  · intro h k _
    rw [h]
    omega

/-- What the four interfaces promise of a timer programmed to `freq`, and what `sleep` promises of
`ms`: a tick is worth `1000 / freq` milliseconds for each of them, for as long as a thousand times
the count fits its 64 bits. -/
structure Agrees (freq : UInt32) (ms : UInt64) (t : Timer) : Prop where
  uptime : ∀ k, k * 1000 < 2^64 → (tick^[k] t).getUptimeMs.toNat = k * 1000 / freq.toNat
  timeofday : ∀ k, k * 1000 < 2^64 → (tick^[k] t).timeOfDayMs = k * 1000 / freq.toNat
  time : ∀ k, k * 1000 < 2^64 → (tick^[k] t).sysTime.toNat = k * 1000 / freq.toNat / 1000
  poll : ∀ j k, (j + k) * 1000 < 2^64 →
    ((tick^[j] t).elapsed (tick^[j + k] t)).toNat = k * 1000 / freq.toNat
  sleep : ms.toNat * freq.toNat < 2^64 → ∀ j wakes t', (j + wakes.sum) * 1000 < 2^64 →
    (tick^[j] t).sleep ms wakes = some t' →
    ms.toNat * freq.toNat ≤ (t'.timeOfDayMs - (tick^[j] t).timeOfDayMs) * freq.toNat + 1000

theorem timeofday_right_iff (freq : UInt32) :
    (∀ k, k * 1000 < 2^64 → (tick^[k] zero).timeOfDayMs = k * 1000 / freq.toNat) ↔
      freq.toNat = 1000 := by
  rw [← tick_is_ms_iff]
  apply forall_congr'
  intro k
  apply imp_congr_right
  intro hk
  rw [timeOfDayMs_eq, counted (by omega)]

/-- A sleep returns no sooner than its number of ticks, counted with the frequency 100. -/
theorem sleepFrom_some {start wait : UInt64} {wakes : List Nat} {t t' : Timer}
    (h : sleepFrom start wait wakes t = some t') :
    ∃ n, n ≤ wakes.sum ∧ t' = tick^[n] t ∧ wait ≤ t'.counter - start := by
  induction wakes generalizing t with
  | nil =>
    rw [sleepFrom] at h
    split_ifs at h with hlt
    cases h
    exact ⟨0, Nat.zero_le _, rfl, UInt64.not_lt.mp hlt⟩
  | cons n wakes ih =>
    rw [sleepFrom] at h
    split_ifs at h with hlt
    · obtain ⟨m, hm, rfl, hwait⟩ := ih h
      refine ⟨m + n, ?_, (Function.iterate_add_apply tick m n t).symm, hwait⟩
      rw [List.sum_cons]
      omega
    · cases h
      exact ⟨0, Nat.zero_le _, rfl, UInt64.not_lt.mp hlt⟩

/-- A timer that counts milliseconds and knows it keeps the promises. -/
theorem agrees_at_thousand (ms : UInt64) : Agrees 1000 ms ⟨0, 1000⟩ := by
  have hcount {k : Nat} (h : k * 1000 < 2^64) :
      (tick^[k] (⟨0, 1000⟩ : Timer)).counter.toNat = k := by
    rw [iterate_counter]
    simpa using Nat.mod_eq_of_lt (show k < 2^64 by omega)
  have hfreq : (1000 : UInt32).toNat = 1000 := rfl
  have hthousand : (1000 : UInt64).toNat = 1000 := rfl
  have hfrequency (k : Nat) : ((tick^[k] (⟨0, 1000⟩ : Timer)).frequency.toUInt64).toNat = 1000 := by
    rw [iterate_frequency]
    rfl
  refine ⟨?_, ?_, ?_, ?_, ?_⟩
  · intro k hk
    rw [getUptimeMs, UInt64.toNat_div, UInt64.toNat_mul, hcount hk, hfrequency, hthousand, hfreq,
      Nat.mod_eq_of_lt hk]
  · intro k hk
    rw [timeOfDayMs_eq, hcount hk, hfreq, Nat.mul_div_cancel _ (by norm_num)]
  · intro k hk
    rw [sysTime, ticks, UInt64.toNat_div, hcount hk, hthousand, hfreq,
      Nat.mul_div_cancel _ (by norm_num)]
  · intro j k hjk
    have hj : j * 1000 < 2^64 :=
      (Nat.mul_le_mul_right 1000 (Nat.le_add_right j k)).trans_lt hjk
    have hle : (tick^[j] (⟨0, 1000⟩ : Timer)).counter ≤ (tick^[j + k] ⟨0, 1000⟩).counter := by
      rw [UInt64.le_iff_toNat_le, hcount hj, hcount hjk]
      exact Nat.le_add_right j k
    rw [elapsed, ticks, ticks, UInt64.toNat_sub_of_le _ _ hle, hcount hj, hcount hjk, hfreq]
    omega
  · intro hms j wakes t' hsum hs
    obtain ⟨n, hn, rfl, hwait⟩ := sleepFrom_some hs
    rw [← Function.iterate_add_apply] at hwait ⊢
    rw [hfreq] at hms
    have hj : j * 1000 < 2^64 :=
      (Nat.mul_le_mul_right 1000 (Nat.le_add_right j _)).trans_lt hsum
    have hnj : (n + j) * 1000 < 2^64 := by
      rw [Nat.add_comm]
      exact (Nat.mul_le_mul_right 1000 (Nat.add_le_add_left hn j)).trans_lt hsum
    have hle : (tick^[j] (⟨0, 1000⟩ : Timer)).counter ≤ (tick^[n + j] ⟨0, 1000⟩).counter := by
      rw [UInt64.le_iff_toNat_le, hcount hj, hcount hnj]
      exact Nat.le_add_left j n
    have hwaited : ((tick^[j] (⟨0, 1000⟩ : Timer)).waitTicks ms).toNat = ms.toNat := by
      rw [waitTicks, UInt64.toNat_div, UInt64.toNat_mul, hfrequency, hthousand,
        Nat.mod_eq_of_lt hms]
      omega
    rw [UInt64.le_iff_toNat_le, UInt64.toNat_sub_of_le _ _ hle, hwaited, hcount hnj,
      hcount hj] at hwait
    rw [timeOfDayMs_eq, timeOfDayMs_eq, hcount hnj, hcount hj, hfreq]
    omega

/-- A sleep that one interrupt after exactly its number of ticks ends. -/
theorem sleep_ends (t : Timer) (ms : UInt64) :
    t.sleep ms [(t.waitTicks ms).toNat] = some (tick^[(t.waitTicks ms).toNat] t) := by
  have hcount : (tick^[(t.waitTicks ms).toNat] t).counter - t.counter = t.waitTicks ms := by
    rw [iterate_counter, UInt64.ofNat_toNat, UInt64.add_comm]
    exact UInt64.add_sub_cancel ..
  rw [sleep, sleepFrom]
  split_ifs with hlt
  · rw [sleepFrom, hcount]
    simp
  · have hzero : (t.waitTicks ms).toNat = 0 := by
      rw [UInt64.sub_self] at hlt
      simpa [UInt64.lt_iff_toNat_lt] using hlt
    rw [hzero]
    rfl

/-- A tick of the kernel's own 250 Hz is worth four milliseconds, ten or one. -/
example : zero.tick.getUptimeMs = 10 ∧ zero.tick.timeOfDayMs = 1 ∧ 1 * 1000 / 250 = 4 := by
  decide

/-- Whatever frequency the PIT is programmed to, the interfaces do not agree on a tick. -/
theorem ticks_never_agree (freq : UInt32) (ms : UInt64) :
    ¬ ∃ t ports, zero.init freq = some (t, ports) ∧ Agrees freq ms t := by
  rintro ⟨t, ports, hinit, hagrees⟩
  have hzero : t = zero := by
    rw [init] at hinit
    split_ifs at hinit
    cases hinit
    rfl
  subst hzero
  have huptime := (uptime_right_iff freq).mp hagrees.uptime
  have htimeofday := (timeofday_right_iff freq).mp hagrees.timeofday
  omega

/-- The frequency the kernel passes to `init`. -/
theorem kernel_ticks_disagree :
    ¬ ∀ freq ms, freq ≠ 0 → ∃ t ports, zero.init freq = some (t, ports) ∧ Agrees freq ms t := by
  intro h
  obtain ⟨t, ports, hinit, hagrees⟩ := h 250 0 (by decide)
  cases hinit
  have hone := hagrees.timeofday 1 (by norm_num)
  rw [timeOfDayMs_eq, counted (by norm_num)] at hone
  have hfreq : (250 : UInt32).toNat = 250 := rfl
  rw [hfreq] at hone
  omega

end Timer

end LosTacOS.Drivers
