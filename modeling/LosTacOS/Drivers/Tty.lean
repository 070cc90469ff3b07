import Mathlib
import LosTacOS.Drivers.Scancodes

/-! The terminal's line discipline. The keyboard stores bytes whenever it interrupts, also in the
middle of the loop that takes one out. -/
namespace LosTacOS.Drivers.Tty

/-- `stdin_buffer` and `stdin_len`. `stored` lists all bytes that the keyboard has stored so far. -/
structure Stdin where
  buffer : Nat → UInt8
  len : Nat
  stored : List UInt8

/-- What comes from the keyboard in one round of a read: before the test of `stdin_len`, before each
test of the loop that shifts the bytes, behind the last of them, and between the load and the store
of `stdin_len--`. -/
structure Arrivals where
  waiting : List UInt8
  shifting : Nat → List UInt8
  behind : List UInt8
  within : List UInt8

/-- Nothing comes between the last test of the loop and the end of `stdin_len--`. -/
def Arrivals.Calm (a : Arrivals) : Prop := a.behind = [] ∧ a.within = []

namespace Stdin

variable {s : Stdin} {a : Arrivals} {arrive : Nat → List UInt8} {bs q : List UInt8} {b c : UInt8}
  {i n : Nat}

def store (s : Stdin) (b : UInt8) : Stdin :=
  if s.len < 256 then
    { buffer := Function.update s.buffer s.len b, len := s.len + 1, stored := s.stored ++ [b] }
  else s

def storeAll (s : Stdin) (bs : List UInt8) : Stdin := bs.foldl store s

def shift (arrive : Nat → List UInt8) : Nat → Nat → Stdin → Stdin
  | 0, _, s => s
  | n + 1, i, s =>
    let s := s.storeAll (arrive i)
    if i < s.len then
      shift arrive n (i + 1) { s with buffer := Function.update s.buffer (i - 1) (s.buffer i) }
    else s

def popRawByte (s : Stdin) (a : Arrivals) : UInt8 × Stdin :=
  let c := s.buffer 0
  let s := (s.shift a.shifting 256 1).storeAll a.behind
  let len := s.len - 1
  (c, { s.storeAll a.within with len := len })

def content (s : Stdin) : List UInt8 := (List.range s.len).map s.buffer

def accepted (s : Stdin) (bs : List UInt8) : List UInt8 := bs.take (256 - s.len)

theorem content_length (s : Stdin) : s.content.length = s.len := by simp [content]

section store

theorem content_store (h : s.len < 256) : (s.store b).content = s.content ++ [b] := by
  have hkept : ∀ j ∈ List.range s.len, Function.update s.buffer s.len b j = s.buffer j := by
    intro j hj
    exact Function.update_of_ne (Nat.ne_of_lt (List.mem_range.mp hj)) _ _
  rw [store, if_pos h, content, content]
  dsimp only
  rw [List.range_succ, List.map_append, List.map_congr_left hkept, List.map_singleton,
    Function.update_self]

theorem storeAll_spec (s : Stdin) (bs : List UInt8) (h : s.len ≤ 256) :
    (s.storeAll bs).content = s.content ++ s.accepted bs ∧
      (s.storeAll bs).stored = s.stored ++ s.accepted bs ∧ (s.storeAll bs).len ≤ 256 := by
  induction bs generalizing s with
  | nil => simp [storeAll, accepted, h]
  | cons b bs ih =>
    have hcons : s.storeAll (b :: bs) = (s.store b).storeAll bs := rfl
    rw [hcons]
    by_cases hlt : s.len < 256
    · have hlen : (s.store b).len = s.len + 1 := by rw [store, if_pos hlt]
      have hstored : (s.store b).stored = s.stored ++ [b] := by rw [store, if_pos hlt]
      have hacc : s.accepted (b :: bs) = b :: (s.store b).accepted bs := by
        rw [accepted, accepted, hlen, show 256 - s.len = (256 - (s.len + 1)) + 1 by omega,
          List.take_succ_cons]
      obtain ⟨hcontent, hst, hle⟩ := ih (s.store b) (by omega)
      rw [hcontent, hst, content_store hlt, hstored, hacc]
      simp [hle]
    · have hfull : s.store b = s := if_neg hlt
      have hnone (cs : List UInt8) : s.accepted cs = [] := by
        rw [accepted, show 256 - s.len = 0 by omega, List.take_zero]
      obtain ⟨hcontent, hst, hle⟩ := ih s h
      rw [hfull, hcontent, hst, hnone, hnone]
      exact ⟨rfl, rfl, hle⟩

/-- The cells hold what the keyboard driver takes for `stdin_buffer`. -/
theorem storeAll_toStdin {k : Scancodes.State} (hk : s.content = k.stdinBuffer)
    (h : s.len ≤ 256) : (s.storeAll bs).content = (k.toStdin bs).stdinBuffer := by
  rw [(s.storeAll_spec bs h).1, accepted, ← s.content_length, hk]
  rfl

end store

section shift

/-- In front of test `i` of the loop: the bytes `q` wait, and those before `i` have moved down. -/
structure Shifted (q : List UInt8) (i : Nat) (s : Stdin) : Prop where
  len : s.len = q.length
  low : 1 ≤ i
  high : i ≤ q.length
  cells : ∀ j < q.length, s.buffer j = q.getD (if j + 1 < i then j + 1 else j) 0

theorem Shifted.store (h : Shifted q i s) (hlt : s.len < 256) :
    Shifted (q ++ [b]) i (s.store b) := by
  have hlen := h.len
  have hhigh := h.high
  refine ⟨?_, h.low, ?_, ?_⟩
  · rw [Stdin.store, if_pos hlt, List.length_append, hlen]
    rfl
  · rw [List.length_append]
    omega
  · intro j hj
    rw [List.length_append, List.length_singleton] at hj
    rw [Stdin.store, if_pos hlt]
    by_cases hjl : j < q.length
    · have hne : j ≠ s.len := by omega
      have hin : (if j + 1 < i then j + 1 else j) < q.length := by
        split
        · omega
        · exact hjl
      rw [List.getD_append _ _ _ _ hin, ← h.cells j hjl]
      exact Function.update_of_ne hne _ _
    · have hj' : j = s.len := by omega
      rw [if_neg (by omega), hj', List.getD_append_right _ _ _ _ (by omega), hlen, Nat.sub_self]
      exact Function.update_self _ _ _

theorem Shifted.storeAll (h : Shifted q i s) (bs : List UInt8) :
    Shifted (q ++ s.accepted bs) i (s.storeAll bs) := by
  induction bs generalizing s q with
  | nil => simpa [Stdin.storeAll, accepted] using h
  | cons b bs ih =>
    have hcons : s.storeAll (b :: bs) = (s.store b).storeAll bs := rfl
    rw [hcons]
    by_cases hlt : s.len < 256
    · have hlen : (s.store b).len = s.len + 1 := by rw [Stdin.store, if_pos hlt]
      have hacc : s.accepted (b :: bs) = b :: (s.store b).accepted bs := by
        rw [accepted, accepted, hlen, show 256 - s.len = (256 - (s.len + 1)) + 1 by omega,
          List.take_succ_cons]
      have hall := ih (h.store hlt (b := b))
      rw [List.append_assoc, List.singleton_append, ← hacc] at hall
      exact hall
    · have hfull : s.store b = s := if_neg hlt
      have hnone (cs : List UInt8) : s.accepted cs = [] := by
        rw [accepted, show 256 - s.len = 0 by omega, List.take_zero]
      have hall := ih h
      rw [hfull, hnone] at *
      exact hall

theorem Shifted.move (h : Shifted q i s) (hlt : i < q.length) :
    Shifted q (i + 1) { s with buffer := Function.update s.buffer (i - 1) (s.buffer i) } := by
  have hlow := h.low
  refine ⟨h.len, by omega, hlt, ?_⟩
  intro j hj
  dsimp only
  by_cases hji : j = i - 1
  · rw [hji, Function.update_self, h.cells i hlt, if_neg (by omega), if_pos (by omega)]
    congr 1
    omega
  · rw [Function.update_of_ne hji, h.cells j hj]
    congr 1
    by_cases hlt' : j + 1 < i
    · rw [if_pos hlt', if_pos (by omega)]
    · rw [if_neg hlt', if_neg (by omega)]

/-- When the loop ends, each byte has moved down, and the newest is still there as well. -/
theorem shift_spec (h : Shifted q i s) (hq : q.length ≤ 256) (hn : 256 < n + i) :
    ∃ come, (shift arrive n i s).stored = s.stored ++ come ∧ (q ++ come).length ≤ 256 ∧
      Shifted (q ++ come) (q ++ come).length (shift arrive n i s) := by
  induction n generalizing i s q with
  | zero =>
    have hhigh := h.high
    omega
  | succ n ih =>
    have hlen := h.len
    obtain ⟨hcontent, hstored, hle⟩ := s.storeAll_spec (arrive i) (by omega)
    have hnext := h.storeAll (arrive i)
    unfold shift
    dsimp only
    split
    · rename_i hlt
      rw [hnext.len] at hlt hle
      obtain ⟨come, hst, hle', hsh⟩ := ih (hnext.move hlt) hle (by omega)
      refine ⟨s.accepted (arrive i) ++ come, ?_, ?_, ?_⟩
      · rw [hst]
        dsimp only
        rw [hstored, List.append_assoc]
      · rw [← List.append_assoc]
        exact hle'
      · rw [← List.append_assoc]
        exact hsh
    · rename_i hge
      rw [hnext.len] at hge hle
      have hi : i = (q ++ s.accepted (arrive i)).length := by
        have hhigh := hnext.high
        omega
      refine ⟨s.accepted (arrive i), hstored, hle, ?_⟩
      rw [← hi]
      exact hnext

theorem Shifted.start (s : Stdin) (h : s.len ≠ 0) : Shifted s.content 1 s := by
  refine ⟨s.content_length.symm, le_refl 1, ?_, ?_⟩
  · rw [s.content_length]
    omega
  · intro j hj
    rw [s.content_length] at hj
    rw [if_neg (by omega), content, List.getD_eq_getElem _ _ (by simpa using hj), List.getElem_map,
      List.getElem_range]

theorem Shifted.content_end (h : Shifted q q.length s) :
    s.content = q.tail ++ [q.getLastD 0] := by
  have hlow := h.low
  have hne : q ≠ [] := by
    rintro rfl
    cases hlow
  apply List.ext_getElem
  · rw [s.content_length, h.len]
    simp
    omega
  · intro j hj' _
    have hj := hj'
    rw [s.content_length, h.len] at hj
    have hcell : s.content[j] = s.buffer j := by simp [content]
    rw [hcell, h.cells j hj]
    by_cases hlast : j + 1 < q.length
    · rw [if_pos hlast, List.getD_eq_getElem _ _ hlast,
        List.getElem_append_left (by rw [List.length_tail]; omega), List.getElem_tail]
    · rw [if_neg hlast, List.getD_eq_getElem _ _ hj, List.getElem_append_right (by simp; omega)]
      simp only [List.length_tail, List.getElem_singleton]
      rw [List.getLastD_eq_getLast?, List.getLast?_eq_getElem?, List.getElem?_eq_getElem (by omega),
        Option.getD_some]
      congr 1
      omega

end shift

section pop

theorem content_shorter (h : n ≤ s.len) : content { s with len := n } = s.content.take n := by
  rw [content, content, ← List.map_take, List.take_range, Nat.min_eq_left h]

def moved (s : Stdin) (a : Arrivals) : Stdin := s.shift a.shifting 256 1

/-- What popping comes to, whatever arrives meanwhile. `come` arrives while the bytes move. -/
theorem pop_spec {rest : List UInt8} (hs : s.content = c :: rest) (hle : s.len ≤ 256) :
    (s.popRawByte a).1 = c ∧ ∃ come x,
      (s.moved a).content = rest ++ come ++ [x] ∧
      (s.popRawByte a).2.content =
        (rest ++ come ++ x :: (s.moved a).accepted a.behind).dropLast ∧
      (s.popRawByte a).2.stored = s.stored ++ come ++ (s.moved a).accepted a.behind ++
        ((s.moved a).storeAll a.behind).accepted a.within ∧
      (s.popRawByte a).2.len ≤ 256 := by
  have hlen : s.len = (c :: rest).length := by rw [← hs, s.content_length]
  have hstart := Shifted.start s (by rw [hlen]; simp)
  rw [hs] at hstart
  have hfirst : s.buffer 0 = c := by
    have hcell := hstart.cells 0 (by simp)
    simpa using hcell
  obtain ⟨come, hstored, hfit, hend⟩ : ∃ come, (s.moved a).stored = s.stored ++ come ∧
      (c :: rest ++ come).length ≤ 256 ∧
      Shifted (c :: rest ++ come) (c :: rest ++ come).length (s.moved a) :=
    shift_spec hstart (hlen ▸ hle) (by omega)
  have hcontent := hend.content_end
  have hle1 : (s.moved a).len ≤ 256 := hend.len ▸ hfit
  rw [List.cons_append, List.tail_cons] at hcontent
  have hpop : s.popRawByte a = (s.buffer 0, { ((s.moved a).storeAll a.behind).storeAll a.within with
    len := ((s.moved a).storeAll a.behind).len - 1 }) := rfl
  refine ⟨hfirst, come, _, hcontent, ?_⟩
  rw [hpop]
  dsimp only
  generalize s.moved a = s1 at hcontent hle1 hstored
  obtain ⟨hcontent2, hstored2, hle2⟩ := s1.storeAll_spec a.behind hle1
  have hlen2 := content_length (s1.storeAll a.behind)
  generalize s1.storeAll a.behind = s2 at hcontent2 hstored2 hle2 hlen2
  obtain ⟨hcontent3, hstored3, -⟩ := s2.storeAll_spec a.within hle2
  have hlen3 := content_length (s2.storeAll a.within)
  have hshort : s2.len - 1 ≤ (s2.storeAll a.within).len := by
    rw [← hlen3, hcontent3, List.length_append, hlen2]
    omega
  refine ⟨?_, ?_, ?_⟩
  · rw [content_shorter hshort, hcontent3, List.take_append_of_le_length (by rw [hlen2]; omega),
      ← hlen2, ← List.dropLast_eq_take, hcontent2, hcontent, List.append_assoc _ [_],
      List.singleton_append]
  · rw [hstored3, hstored2, hstored]
  · omega

theorem cons_dropLast_iff {x : UInt8} {l : List UInt8} :
    (x :: l).dropLast = l ↔ ∀ b ∈ l, b = x := by
  induction l generalizing x with
  | nil => simp
  | cons y l ih =>
    rw [List.dropLast_cons_cons, List.cons.injEq, ih]
    constructor
    · rintro ⟨rfl, h⟩ b hb
      cases hb with
      | head => rfl
      | tail _ hb => exact h b hb
    · intro h
      obtain rfl := h y List.mem_cons_self
      exact ⟨rfl, fun b hb => h b (List.mem_cons_of_mem y hb)⟩

/-- The bytes go on waiting in the order in which they came if and only if those that come behind
the last test of the loop are like the newest of the bytes before them, and none comes in the middle
of `stdin_len--`. -/
theorem pop_in_order_iff {rest consumed : List UInt8} (hs : s.content = c :: rest)
    (hle : s.len ≤ 256) (hc : s.stored = consumed ++ s.content) :
    (s.popRawByte a).1 = c ∧
      ((s.popRawByte a).2.stored = consumed ++ [c] ++ (s.popRawByte a).2.content ↔
        (∀ b ∈ (s.moved a).accepted a.behind, b = (s.moved a).content.getLastD 0) ∧
          ((s.moved a).storeAll a.behind).accepted a.within = []) := by
  obtain ⟨hfirst, come, x, hcontent, hafter, hstored, -⟩ := pop_spec (a := a) hs hle
  refine ⟨hfirst, ?_⟩
  have hlast : (s.moved a).content.getLastD 0 = x := by
    rw [hcontent, List.getLastD_eq_getLast?, List.getLast?_append]
    rfl
  rw [hlast, hafter, hstored, hc, hs, List.dropLast_append_of_ne_nil (List.cons_ne_nil _ _),
    ← cons_dropLast_iff]
  generalize (s.moved a).accepted a.behind = late
  generalize ((s.moved a).storeAll a.behind).accepted a.within = lost
  have hcancel : consumed ++ c :: rest ++ come ++ late ++ lost =
      consumed ++ [c] ++ (rest ++ come ++ (x :: late).dropLast) ↔
        late ++ lost = (x :: late).dropLast := by
    simp [List.append_assoc]
  rw [hcancel]
  constructor
  · intro h
    have hlen := congrArg List.length h
    rw [List.length_append, List.length_dropLast, List.length_cons] at hlen
    have hnil : lost = [] := List.length_eq_zero_iff.mp (by omega)
    rw [hnil, List.append_nil] at h
    exact ⟨h.symm, hnil⟩
  · rintro ⟨h, rfl⟩
    rw [List.append_nil, h]

def twoKeys : Stdin := ⟨fun i => if i = 0 then 97 else 98, 2, [97, 98]⟩

/-- A third one comes between the loop and `stdin_len--`. -/
def lateKey : Arrivals := ⟨[], fun _ => [], [99], []⟩

theorem lateKey_out_of_order : (twoKeys.popRawByte lateKey).2.stored ≠
    [] ++ [97] ++ (twoKeys.popRawByte lateKey).2.content := by
  have hs : twoKeys.content = 97 :: [98] := rfl
  have hc : twoKeys.stored = [] ++ twoKeys.content := rfl
  obtain ⟨-, horder⟩ := pop_in_order_iff (a := lateKey) hs (by decide) hc
  intro h
  have hlate := (horder.mp h).1 99 (by decide)
  revert hlate
  decide

theorem pop_calm {rest consumed : List UInt8} (ha : a.Calm) (hs : s.content = c :: rest)
    (hle : s.len ≤ 256) (hc : s.stored = consumed ++ s.content) :
    (s.popRawByte a).1 = c ∧
      (s.popRawByte a).2.stored = consumed ++ [c] ++ (s.popRawByte a).2.content ∧
      (s.popRawByte a).2.len ≤ 256 := by
  obtain ⟨hfirst, horder⟩ := pop_in_order_iff (a := a) hs hle hc
  obtain ⟨-, come, x, -, -, -, hfits⟩ := pop_spec (a := a) hs hle
  refine ⟨hfirst, horder.mpr ?_, hfits⟩
  rw [ha.1, ha.2]
  simp [accepted]

/-- The bytes behind the oldest stay, and what comes is behind them. -/
theorem pop_rest {rest : List UInt8} (ha : a.Calm) (hs : s.content = c :: rest)
    (hle : s.len ≤ 256) : ∃ come, (s.popRawByte a).2.content = rest ++ come := by
  obtain ⟨-, come, x, -, hafter, -, -⟩ := pop_spec (a := a) hs hle
  refine ⟨come, ?_⟩
  rw [hafter, ha.1, accepted, List.take_nil, List.dropLast_concat]

end pop

end Stdin

structure Termios where
  cLflag : UInt32
  cCc : Nat → UInt8

namespace Termios

def defaults : Termios where
  cLflag := 1 ||| 2 ||| 8
  cCc i := if i = 0 then 3 else if i = 2 then 8 else if i = 4 then 4 else if i = 6 then 1 else 0

def canonical (t : Termios) : Bool := t.cLflag &&& 2 ≠ 0

def echo (t : Termios) : Bool := t.cLflag &&& 8 ≠ 0

/-- A backspace, a delete, or `VERASE` if there is one. -/
def erases (t : Termios) (c : UInt8) : Bool := c = 8 || c = 127 || (t.cCc 2 ≠ 0 && c = t.cCc 2)

end Termios

/-- `shown` is what was put on the console so far. -/
structure Terminal where
  stdin : Stdin
  shown : List UInt8

/-- A call of `read` with the terminal's settings and what arrives in each of its rounds. -/
structure Call where
  termios : Termios
  len : Nat
  rounds : List Arrivals

namespace Terminal

variable {t : Termios} {len : Nat} {as : List Arrivals} {a : Arrivals} {y y' y1 : Terminal}
  {buf line typed echo consumed : List UInt8} {c : UInt8}

def arrive (y : Terminal) (bs : List UInt8) : Terminal := { y with stdin := y.stdin.storeAll bs }

def pop (y : Terminal) (a : Arrivals) : UInt8 × Terminal :=
  ((y.stdin.popRawByte a).1, { y with stdin := (y.stdin.popRawByte a).2 })

def put (t : Termios) (c : UInt8) (y : Terminal) : Terminal :=
  if t.echo then { y with shown := y.shown ++ [c] } else y

/-- `read_canonical` with `buf` read so far. It has not returned when its rounds end. -/
def readCanonical (t : Termios) (len : Nat) :
    List Arrivals → List UInt8 → Terminal → Option (List UInt8 × Terminal)
  | [], buf, y => if len ≤ buf.length then some (buf, y) else none
  | a :: as, buf, y =>
    if len ≤ buf.length then some (buf, y)
    else
      let y := y.arrive a.waiting
      if y.stdin.len = 0 then readCanonical t len as buf y
      else
        let (c, y) := y.pop a
        if t.erases c then
          if 0 < buf.length then readCanonical t len as buf.dropLast (y.put t 8)
          else readCanonical t len as buf y
        else if c = 10 then some (buf ++ [c], y.put t c)
        else readCanonical t len as (buf ++ [c]) (y.put t c)

def waitRaw : List Arrivals → Terminal → Option (List Arrivals × Terminal)
  | [], y => if y.stdin.len = 0 then none else some ([], y)
  | a :: as, y => if y.stdin.len = 0 then waitRaw as (y.arrive a.waiting) else some (a :: as, y)

def takeRaw (len : Nat) :
    List Arrivals → List UInt8 → Terminal → Option (List UInt8 × Terminal)
  | [], buf, y => if len ≤ buf.length ∨ y.stdin.len = 0 then some (buf, y) else none
  | a :: as, buf, y =>
    let y := y.arrive a.waiting
    if len ≤ buf.length ∨ y.stdin.len = 0 then some (buf, y)
    else takeRaw len as (buf ++ [(y.pop a).1]) (y.pop a).2

def readRaw (t : Termios) (len : Nat) (as : List Arrivals) (y : Terminal) :
    Option (List UInt8 × Terminal) :=
  if len = 0 then some ([], y)
  else if y.stdin.len = 0 ∧ t.cCc 6 = 0 then some ([], y)
  else (waitRaw as y).bind fun p => takeRaw len p.1 [] p.2

def read (y : Terminal) (c : Call) : Option (List UInt8 × Terminal) :=
  if c.termios.canonical then readCanonical c.termios c.len c.rounds [] y
  else readRaw c.termios c.len c.rounds y

def reads : List Call → Terminal → Option (List (List UInt8) × Terminal)
  | [], y => some ([], y)
  | c :: cs, y =>
    (y.read c).bind fun p => (reads cs p.2).map fun q => (p.1 :: q.1, q.2)

section lines

def edit (t : Termios) (line : List UInt8) (c : UInt8) : List UInt8 :=
  if t.erases c then line.dropLast else line ++ [c]

def edited (t : Termios) (line typed : List UInt8) : List UInt8 := typed.foldl (edit t) line

def looks (line shown : List UInt8) : List UInt8 :=
  shown.foldl (fun l c => if c = 8 then l.dropLast else l ++ [c]) line

def Done (t : Termios) (len : Nat) (line typed : List UInt8) : Prop :=
  len ≤ (edited t line typed).length ∨ typed.getLast? = some 10 ∧ t.erases 10 = false

/-- A line is what is left of the bytes typed once the erased ones are gone. It ends as soon as it
can, and the console shows it if it is to. -/
structure LineRead (t : Termios) (len : Nat) (line typed result echo : List UInt8) : Prop where
  text : result = edited t line typed
  done : Done t len line typed
  first : ∀ p q, typed = p ++ q → q ≠ [] → ¬ Done t len line p
  screen : if t.echo then looks line echo = result else echo = []

theorem not_done_nil (h : ¬ len ≤ buf.length) : ¬ Done t len buf [] := by
  rintro (hd | ⟨hd, -⟩)
  · exact h hd
  · cases hd

theorem LineRead.nil (h : len ≤ buf.length) : LineRead t len buf [] buf [] := by
  refine ⟨rfl, Or.inl h, ?_, ?_⟩
  · intro p q hpq hq
    exact absurd (List.append_eq_nil_iff.mp hpq.symm).2 hq
  · split
    · rfl
    · rfl

theorem LineRead.newline (h : ¬ len ≤ buf.length) (he : t.erases 10 = false) :
    LineRead t len buf [10] (buf ++ [10]) (if t.echo then [10] else []) := by
  refine ⟨?_, Or.inr ⟨rfl, he⟩, ?_, ?_⟩
  · simp [edited, edit, he]
  · intro p q hpq hq
    cases p with
    | nil => exact not_done_nil h
    | cons x p =>
      rw [List.cons_append, List.cons.injEq] at hpq
      exact absurd (List.append_eq_nil_iff.mp hpq.2.symm).2 hq
  · split
    · rfl
    · rfl

theorem LineRead.cons {result shown : List UInt8}
    (h : LineRead t len (edit t buf c) typed result echo) (hlen : ¬ len ≤ buf.length)
    (hc : c = 10 → t.erases 10 = true)
    (hshown : if t.echo then looks buf shown = edit t buf c else shown = []) :
    LineRead t len buf (c :: typed) result (shown ++ echo) := by
  refine ⟨h.text, ?_, ?_, ?_⟩
  · cases h.done with
    | inl hd => exact Or.inl hd
    | inr hd =>
      refine Or.inr ⟨?_, hd.2⟩
      rw [List.getLast?_cons, hd.1]
      rfl
  · intro p q hpq hq
    cases p with
    | nil => exact not_done_nil hlen
    | cons x p =>
      rw [List.cons_append, List.cons.injEq] at hpq
      obtain ⟨rfl, hpq⟩ := hpq
      intro hd
      apply h.first p q hpq hq
      cases hd with
      | inl hd => exact Or.inl hd
      | inr hd =>
        rw [List.getLast?_cons] at hd
        cases hp : p.getLast? with
        | none =>
          rw [hp] at hd
          have hten := hc (Option.some.inj hd.1)
          rw [hd.2] at hten
          cases hten
        | some z =>
          rw [hp] at hd
          exact Or.inr ⟨hp.trans hd.1, hd.2⟩
  · have hecho := h.screen
    split
    · rename_i he
      rw [if_pos he] at hecho hshown
      have happend : looks buf (shown ++ echo) = looks (looks buf shown) echo := List.foldl_append
      rw [happend, hshown, hecho]
    · rename_i he
      rw [if_neg he] at hecho hshown
      rw [hshown, hecho]
      rfl

end lines

/-- The bytes `typed` are taken from those that wait, and `echo` is put on the console. -/
structure Takes (consumed typed echo : List UInt8) (y y' : Terminal) : Prop where
  stored : y'.stdin.stored = consumed ++ typed ++ y'.stdin.content
  shown : y'.shown = y.shown ++ echo
  fits : y'.stdin.len ≤ 256

def Waits (consumed : List UInt8) (y : Terminal) : Prop :=
  y.stdin.stored = consumed ++ y.stdin.content ∧ y.stdin.len ≤ 256

theorem Takes.nil (h : Waits consumed y) : Takes consumed [] [] y y := by
  refine ⟨?_, (List.append_nil _).symm, h.2⟩
  rw [List.append_nil]
  exact h.1

theorem Takes.waits (h : Takes consumed typed echo y y') : Waits (consumed ++ typed) y' :=
  ⟨h.stored, h.fits⟩

theorem Takes.trans {typed' echo' : List UInt8} (h : Takes consumed typed echo y y1)
    (h' : Takes (consumed ++ typed) typed' echo' y1 y') :
    Takes consumed (typed ++ typed') (echo ++ echo') y y' := by
  refine ⟨?_, ?_, h'.fits⟩
  · rw [h'.stored, List.append_assoc consumed]
  · rw [h'.shown, h.shown, List.append_assoc]

theorem Waits.arrive (h : Waits consumed y) (bs : List UInt8) : Waits consumed (y.arrive bs) := by
  obtain ⟨hcontent, hstored, hle⟩ := y.stdin.storeAll_spec bs h.2
  refine ⟨?_, hle⟩
  rw [Terminal.arrive, hstored, hcontent, h.1, List.append_assoc]

theorem Waits.pop (h : Waits consumed y) (ha : a.Calm) (hne : y.stdin.len ≠ 0) :
    Takes consumed [(y.pop a).1] [] y (y.pop a).2 := by
  cases hs : y.stdin.content with
  | nil =>
    have hlen := y.stdin.content_length
    rw [hs] at hlen
    exact absurd hlen.symm hne
  | cons c rest =>
    obtain ⟨hfirst, hstored, hfits⟩ := Stdin.pop_calm ha hs h.2 h.1
    refine ⟨?_, (List.append_nil _).symm, hfits⟩
    rw [Terminal.pop, hfirst]
    exact hstored

theorem Takes.put (h : Takes consumed typed [] y y1) (t : Termios) (c : UInt8) :
    Takes consumed typed (if t.echo then [c] else []) y (y1.put t c) := by
  have hshown := h.shown
  rw [List.append_nil] at hshown
  unfold Terminal.put
  split
  · exact ⟨h.stored, congrArg (· ++ [c]) hshown, h.fits⟩
  · exact h

theorem readCanonical_spec (h : Waits consumed y) (ha : ∀ a ∈ as, a.Calm)
    (hr : readCanonical t len as buf y = some (line, y')) :
    ∃ typed echo, Takes consumed typed echo y y' ∧ LineRead t len buf typed line echo := by
  induction as generalizing buf y consumed with
  | nil =>
    unfold readCanonical at hr
    split at hr
    · rename_i hfull
      cases hr
      exact ⟨[], [], .nil h, .nil hfull⟩
    · cases hr
  | cons a as ih =>
    have has : ∀ b ∈ as, b.Calm := fun b hb => ha b (List.mem_cons_of_mem a hb)
    unfold readCanonical at hr
    split at hr
    · rename_i hfull
      cases hr
      exact ⟨[], [], .nil h, .nil hfull⟩
    · rename_i hroom
      have h1 := h.arrive a.waiting
      dsimp only at hr
      split at hr
      · -- nothing waits, and the next interrupt comes
        obtain ⟨typed, echo, htakes, hline⟩ := ih h1 has hr
        exact ⟨typed, echo, ⟨htakes.stored, htakes.shown, htakes.fits⟩, hline⟩
      · rename_i hne
        have hpop := h1.pop (ha a List.mem_cons_self) hne
        have hpop' : Takes consumed [((y.arrive a.waiting).pop a).1] [] y
            ((y.arrive a.waiting).pop a).2 := ⟨hpop.stored, hpop.shown, hpop.fits⟩
        generalize ((y.arrive a.waiting).pop a).1 = c at hr hpop'
        generalize ((y.arrive a.waiting).pop a).2 = y2 at hr hpop'
        have hput (b : UInt8) := hpop'.put t b
        split at hr
        · rename_i he
          have hedit : edit t buf c = buf.dropLast := if_pos he
          have hten : c = 10 → t.erases 10 = true := fun h10 => h10 ▸ he
          split at hr
          · obtain ⟨typed, echo, htakes, hline⟩ := ih (hput 8).waits has hr
            refine ⟨c :: typed, _, (hput 8).trans htakes, ?_⟩
            rw [← hedit] at hline
            apply hline.cons hroom hten
            split
            · exact hedit.symm
            · rfl
          · rename_i hempty
            have hnil : buf = [] := List.length_eq_zero_iff.mp (Nat.eq_zero_of_not_pos hempty)
            obtain ⟨typed, echo, htakes, hline⟩ := ih hpop'.waits has hr
            refine ⟨c :: typed, _, hpop'.trans htakes, ?_⟩
            have hsame : edit t buf c = buf := by rw [hedit, hnil]; rfl
            rw [← hsame] at hline
            apply hline.cons hroom hten
            split
            · exact hsame.symm
            · rfl
        · rename_i he
          have hedit : edit t buf c = buf ++ [c] := if_neg he
          split at hr
          · rename_i hten
            cases hr
            have he10 : t.erases 10 = false := by
              rw [hten] at he
              simpa using he
            refine ⟨[c], _, hput c, ?_⟩
            rw [hten]
            exact .newline hroom he10
          · rename_i hten
            obtain ⟨typed, echo, htakes, hline⟩ := ih (hput c).waits has hr
            refine ⟨c :: typed, _, (hput c).trans htakes, ?_⟩
            rw [← hedit] at hline
            apply hline.cons hroom fun h10 => absurd h10 hten
            have h8 : c ≠ 8 := by
              rintro rfl
              exact he rfl
            split
            · rw [hedit]
              exact if_neg h8
            · rfl

section raw

theorem takeRaw_spec (h : Waits consumed y) (ha : ∀ a ∈ as, a.Calm) (hbuf : buf.length ≤ len)
    (hr : takeRaw len as buf y = some (line, y')) : ∃ typed, Takes consumed typed [] y y' ∧
      line = buf ++ typed ∧ line.length ≤ len ∧
      (y.stdin.len ≠ 0 → buf.length < len → typed ≠ []) := by
  induction as generalizing buf y consumed with
  | nil =>
    unfold takeRaw at hr
    split at hr
    · rename_i hend
      cases hr
      refine ⟨[], .nil h, (List.append_nil _).symm, hbuf, ?_⟩
      intro hne hlt
      exact absurd hend (by omega)
    · cases hr
  | cons a as ih =>
    have h1 := h.arrive a.waiting
    have hmore : y.stdin.len ≤ (y.arrive a.waiting).stdin.len := by
      rw [← Stdin.content_length, ← Stdin.content_length, Terminal.arrive,
        (y.stdin.storeAll_spec a.waiting h.2).1, List.length_append]
      omega
    unfold takeRaw at hr
    dsimp only at hr
    split at hr
    · rename_i hend
      cases hr
      refine ⟨[], ⟨?_, (List.append_nil _).symm, h1.2⟩, (List.append_nil _).symm, hbuf, ?_⟩
      · rw [List.append_nil]
        exact h1.1
      · intro hne hlt
        exact absurd hend (by omega)
    · rename_i hgo
      have hpop := h1.pop (ha a List.mem_cons_self) fun hz => hgo (Or.inr hz)
      have hpop' : Takes consumed [((y.arrive a.waiting).pop a).1] [] y
          ((y.arrive a.waiting).pop a).2 := ⟨hpop.stored, hpop.shown, hpop.fits⟩
      have hlt : (buf ++ [((y.arrive a.waiting).pop a).1]).length ≤ len := by
        rw [List.length_append, List.length_singleton]
        omega
      obtain ⟨typed, htakes, hline, hle, -⟩ :=
        ih hpop'.waits (fun b hb => ha b (List.mem_cons_of_mem a hb)) hlt hr
      refine ⟨_ :: typed, hpop'.trans htakes, ?_, hle, fun _ _ => List.cons_ne_nil _ _⟩
      rw [hline, List.append_assoc, List.singleton_append]

theorem waitRaw_spec {as' : List Arrivals} (h : Waits consumed y) (ha : ∀ a ∈ as, a.Calm)
    (hr : waitRaw as y = some (as', y1)) : Takes consumed [] [] y y1 ∧ (∀ a ∈ as', a.Calm) ∧
      y1.stdin.len ≠ 0 := by
  induction as generalizing y with
  | nil =>
    unfold waitRaw at hr
    split at hr
    · cases hr
    · rename_i hne
      cases hr
      exact ⟨.nil h, ha, hne⟩
  | cons a as ih =>
    unfold waitRaw at hr
    split at hr
    · obtain ⟨htakes, hrest⟩ := ih (h.arrive a.waiting)
        (fun b hb => ha b (List.mem_cons_of_mem a hb)) hr
      exact ⟨⟨htakes.stored, htakes.shown, htakes.fits⟩, hrest⟩
    · rename_i hne
      cases hr
      exact ⟨.nil h, ha, hne⟩

theorem readRaw_spec (h : Waits consumed y) (ha : ∀ a ∈ as, a.Calm)
    (hr : readRaw t len as y = some (line, y')) : Takes consumed line [] y y' ∧
      line.length ≤ len ∧ (line = [] → len = 0 ∨ t.cCc 6 = 0) := by
  unfold readRaw at hr
  split at hr
  · rename_i hz
    cases hr
    exact ⟨.nil h, Nat.zero_le _, fun _ => Or.inl hz⟩
  · rename_i hlen
    split at hr
    · rename_i hmin
      cases hr
      exact ⟨.nil h, Nat.zero_le _, fun _ => Or.inr hmin.2⟩
    · obtain ⟨⟨as', y1⟩, hw, hr⟩ := Option.bind_eq_some_iff.mp hr
      obtain ⟨hwait, ha', hne⟩ := waitRaw_spec h ha hw
      obtain ⟨typed, htakes, hline, hle, hsome⟩ :=
        takeRaw_spec hwait.waits ha' (Nat.zero_le _) hr
      rw [List.nil_append] at hline
      subst hline
      refine ⟨hwait.trans htakes, hle, ?_⟩
      intro hnil
      exact absurd hnil (hsome hne (Nat.pos_of_ne_zero hlen))

end raw

section returns

theorem put_stdin (t : Termios) (c : UInt8) (y : Terminal) : (y.put t c).stdin = y.stdin := by
  unfold put
  split
  · rfl
  · rfl

/-- A line that waits is read in as many rounds as it has bytes. -/
theorem readCanonical_returns {p q : List UInt8} (hs : y.stdin.content = p ++ 10 :: q)
    (hle : y.stdin.len ≤ 256) (ha : ∀ a ∈ as, a.Calm) (he : t.erases 10 = false)
    (hlt : p.length < as.length) : (readCanonical t len as buf y).isSome := by
  induction as generalizing buf y p q with
  | nil => cases hlt
  | cons a as ih =>
    have has : ∀ b ∈ as, b.Calm := fun b hb => ha b (List.mem_cons_of_mem a hb)
    obtain ⟨hcontent, -, hle1⟩ := y.stdin.storeAll_spec a.waiting hle
    rw [hs, List.append_assoc, List.cons_append] at hcontent
    change (y.arrive a.waiting).stdin.len ≤ 256 at hle1
    change (y.arrive a.waiting).stdin.content = _ at hcontent
    unfold readCanonical
    dsimp only
    generalize y.arrive a.waiting = y1 at hcontent hle1
    split
    · rfl
    · have hne : y1.stdin.len ≠ 0 := by
        rw [← y1.stdin.content_length, hcontent, List.length_append]
        simp
      rw [if_neg hne]
      cases p with
      | nil =>
        have hfirst := (Stdin.pop_spec (a := a) hcontent hle1).1
        change (y1.pop a).1 = 10 at hfirst
        rw [hfirst, if_neg (by simp [he]), if_pos rfl]
        rfl
      | cons c p =>
        rw [List.cons_append] at hcontent
        obtain ⟨-, -, -, -, -, -, hle2⟩ := Stdin.pop_spec (a := a) hcontent hle1
        obtain ⟨come, hrest⟩ := Stdin.pop_rest (ha a List.mem_cons_self) hcontent hle1
        change (y1.pop a).2.stdin.len ≤ 256 at hle2
        change (y1.pop a).2.stdin.content = _ at hrest
        rw [List.append_assoc, List.cons_append] at hrest
        have hshort : p.length < as.length := Nat.lt_of_succ_lt_succ hlt
        have hput (b : UInt8) (buf' : List UInt8) :
            (readCanonical t len as buf' ((y1.pop a).2.put t b)).isSome := by
          have hsame := put_stdin t b (y1.pop a).2
          exact ih ((congrArg Stdin.content hsame).trans hrest)
            ((congrArg Stdin.len hsame).trans_le hle2) has hshort
        split
        · split
          · exact hput 8 _
          · exact ih hrest hle2 has hshort
        · split
          · rfl
          · exact hput _ _

theorem takeRaw_returns (h : len ≤ buf.length + as.length) :
    (takeRaw len as buf y).isSome := by
  induction as generalizing buf y with
  | nil =>
    have hfull : len ≤ buf.length := h
    unfold takeRaw
    rw [if_pos (Or.inl hfull)]
    rfl
  | cons a as ih =>
    unfold takeRaw
    dsimp only
    split
    · rfl
    · apply ih
      rw [List.length_append, List.length_singleton]
      rw [List.length_cons] at h
      omega

/-- With bytes that wait, a raw read takes at most a round for each byte that it asks for. -/
theorem readRaw_returns (hne : y.stdin.len ≠ 0) (h : len ≤ as.length) :
    (readRaw t len as y).isSome := by
  have hwait : waitRaw as y = some (as, y) := by
    cases as with
    | nil => exact if_neg hne
    | cons a as => exact if_neg hne
  unfold readRaw
  rw [hwait]
  split
  · rfl
  · split
    · rfl
    · exact takeRaw_returns (by simpa using h)

end returns

/-- What a call of `read` has to give for the bytes that it takes. -/
def Answers (c : Call) (typed line echo : List UInt8) : Prop :=
  if c.termios.canonical then LineRead c.termios c.len [] typed line echo
  else line = typed ∧ line.length ≤ c.len ∧ (line = [] → c.len = 0 ∨ c.termios.cCc 6 = 0) ∧
    echo = []

structure Answered where
  call : Call
  typed : List UInt8
  line : List UInt8
  echo : List UInt8
  right : Answers call typed line echo

theorem read_spec {call : Call} (h : Waits consumed y) (ha : ∀ a ∈ call.rounds, a.Calm)
    (hr : y.read call = some (line, y')) :
    ∃ typed echo, Takes consumed typed echo y y' ∧ Answers call typed line echo := by
  unfold read at hr
  split at hr
  · rename_i hcanon
    obtain ⟨typed, echo, htakes, hline⟩ := readCanonical_spec h ha hr
    refine ⟨typed, echo, htakes, ?_⟩
    rw [Answers, if_pos hcanon]
    exact hline
  · rename_i hraw
    obtain ⟨htakes, hle, hsome⟩ := readRaw_spec h ha hr
    refine ⟨line, [], htakes, ?_⟩
    rw [Answers, if_neg hraw]
    exact ⟨rfl, hle, hsome, rfl⟩

/-- Whatever the settings of each call and whenever the keyboard interrupts, the calls divide the
bytes typed among them in order, with none lost or read twice, and each makes of its own what it
should. -/
theorem reads_in_order {calls : List Call} {lines : List (List UInt8)} (h : Waits consumed y)
    (ha : ∀ c ∈ calls, ∀ a ∈ c.rounds, a.Calm) (hr : reads calls y = some (lines, y')) :
    ∃ rs : List Answered, rs.map Answered.call = calls ∧ rs.map Answered.line = lines ∧
      Takes consumed (rs.flatMap Answered.typed) (rs.flatMap Answered.echo) y y' := by
  induction calls generalizing y consumed lines with
  | nil =>
    cases hr
    exact ⟨[], rfl, rfl, .nil h⟩
  | cons c cs ih =>
    unfold reads at hr
    obtain ⟨⟨line, y1⟩, hread, hr⟩ := Option.bind_eq_some_iff.mp hr
    obtain ⟨⟨lines', y2⟩, hrest, hr⟩ := Option.map_eq_some_iff.mp hr
    cases hr
    obtain ⟨typed, echo, htakes, hright⟩ := read_spec h (ha c List.mem_cons_self) hread
    obtain ⟨rs, hcalls, hlines, htakes'⟩ :=
      ih htakes.waits (fun d hd => ha d (List.mem_cons_of_mem c hd)) hrest
    refine ⟨⟨c, typed, line, echo, hright⟩ :: rs, ?_, ?_, ?_⟩
    · rw [List.map_cons, hcalls]
    · rw [List.map_cons, hlines]
    · rw [List.flatMap_cons, List.flatMap_cons]
      exact htakes.trans htakes'

def lineCall : Call :=
  ⟨.defaults, 64,
    [⟨[97, 98, 127, 99, 10], fun _ => [], [], []⟩, ⟨[], fun _ => [], [], []⟩,
      ⟨[], fun _ => [], [], []⟩, ⟨[], fun _ => [], [], []⟩, ⟨[], fun _ => [], [], []⟩]⟩

theorem lineCall_in_order : ∃ rs : List Answered, rs.map Answered.call = [lineCall] ∧
    rs.map Answered.line = [[97, 99, 10]] := by
  have hread : (reads [lineCall] ⟨⟨fun _ => 0, 0, []⟩, []⟩).map Prod.fst = some [[97, 99, 10]] := by
    decide
  obtain ⟨⟨lines, y⟩, hr, hl⟩ := Option.map_eq_some_iff.mp hread
  have hwaits : Waits [] ⟨⟨fun _ => 0, 0, []⟩, []⟩ := ⟨rfl, Nat.zero_le _⟩
  have hcalm : ∀ c ∈ [lineCall], ∀ a ∈ c.rounds, a.Calm := by
    simp [lineCall, Arrivals.Calm]
  obtain ⟨rs, hcalls, hlines, -⟩ := reads_in_order hwaits hcalm hr
  exact ⟨rs, hcalls, hlines.trans hl⟩

end Terminal

end LosTacOS.Drivers.Tty
