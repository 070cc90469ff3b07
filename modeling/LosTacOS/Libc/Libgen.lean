import Mathlib.Data.List.DropRight
import Mathlib.Tactic.Common

/-! `basename` and `dirname` of the C library. A string is the list of its bytes up to the NUL, a
pointer into it the number of bytes before it. -/
namespace LosTacOS.Libc

abbrev slash : UInt8 := '/'.toUInt8
abbrev dot : List UInt8 := ['.'.toUInt8]

section code

/-- `while (p > path && test(p[-1])) p--`. -/
def backWhile (path : List UInt8) (test : UInt8 → Bool) : Nat → Nat
  | 0 => 0
  | p + 1 => if test (path.getD p 0) then backWhile path test p else p + 1

def isSlash (c : UInt8) : Bool := c = slash

def basename (path : List UInt8) : List UInt8 :=
  if path = [] then dot
  else
    let stop := backWhile path isSlash path.length
    if stop = 0 then dot
    else (path.take stop).drop (backWhile path (fun c => !isSlash c) stop)

def dirname (path : List UInt8) : List UInt8 :=
  if path = [] then dot
  else
    let p := backWhile path isSlash path.length
    let p := backWhile path (fun c => !isSlash c) p
    if p = 0 then dot else path.take (backWhile path isSlash p)

end code

section paths

def parts (path : List UInt8) : List (List UInt8) := (path.splitOn slash).filter (· ≠ [])

def components (path : List UInt8) : List (List UInt8) := (parts path).filter (· ≠ dot)

def Absolute (path : List UInt8) : Prop := path.head? = some slash

instance : DecidablePred Absolute := fun _ => inferInstanceAs (Decidable (_ = _))

/-- What `dirname` and `basename` say about a path leads where it leads. -/
def Splits (path : List UInt8) : Prop :=
  dirname path ≠ [] ∧ basename path ≠ [] ∧
    components (dirname path ++ slash :: basename path) = components path ∧
    (Absolute (dirname path ++ slash :: basename path) ↔ Absolute path)

variable {path d b s t : List UInt8} {test : UInt8 → Bool}

theorem parts_append (d b : List UInt8) : parts (d ++ slash :: b) = parts d ++ parts b := by
  unfold parts
  rw [List.splitOn_append_cons_self, List.filter_append]

theorem components_append (d b : List UInt8) :
    components (d ++ slash :: b) = components d ++ components b := by
  unfold components
  rw [parts_append, List.filter_append]

theorem parts_slashes (path : List UInt8) (h : ∀ c ∈ s, c = slash) :
    parts (path ++ s) = parts path := by
  induction s generalizing path with
  | nil => rw [List.append_nil]
  | cons c s ih =>
    have hc := h c List.mem_cons_self
    have hs := ih [] fun d hd => h d (List.mem_cons_of_mem c hd)
    rw [List.nil_append] at hs
    rw [hc, parts_append, hs]
    simp [parts]

theorem parts_word (hb : slash ∉ b) (hne : b ≠ []) : parts b = [b] := by
  unfold parts
  rw [List.splitOn_eq_singleton hb]
  simp [hne]

/-- The pointer comes to the end of what is left when the bytes that pass are cut off. -/
theorem backWhile_append (hs : ∀ c ∈ s, test c = true)
    (hd : ∀ c ∈ d.getLast?, test c = false) (t : List UInt8) :
    backWhile (d ++ s ++ t) test (d ++ s).length = d.length := by
  induction s using List.reverseRecOn generalizing t with
  | nil =>
    rw [List.append_nil]
    induction d using List.reverseRecOn with
    | nil => rfl
    | append_singleton d c _ =>
      have hc : test c = false := hd c (by simp)
      rw [List.length_append, List.length_singleton, backWhile]
      simp [hc]
  | append_singleton s c ih =>
    have hc : test c = true := hs c (by simp)
    have hrest := ih (fun e he => hs e (by simp [he])) ([c] ++ t)
    have hlen : (d ++ (s ++ [c])).length = (d ++ s).length + 1 := by simp [Nat.add_assoc]
    have hlist : d ++ (s ++ [c]) ++ t = d ++ s ++ ([c] ++ t) := by simp
    rw [hlen, hlist, backWhile]
    have hget : (d ++ s ++ ([c] ++ t)).getD (d ++ s).length 0 = c := by simp
    rw [hget, if_pos hc, hrest]

/-- A path seen from its end: slashes, a last component, slashes again, and what stands before. -/
structure Cut (path d s b t : List UInt8) : Prop where
  eq : path = d ++ s ++ b ++ t
  before : ∀ c ∈ d.getLast?, isSlash c = false
  left : ∀ c ∈ s, isSlash c = true
  word : ∀ c ∈ b, isSlash c = false
  right : ∀ c ∈ t, isSlash c = true
  apart : s = [] → d = []
  last : b = [] → s = []

theorem getLast_rdropWhile (test : UInt8 → Bool) (l : List UInt8) :
    ∀ c ∈ (l.rdropWhile test).getLast?, test c = false := by
  intro c hc
  have hne : l.rdropWhile test ≠ [] := by
    rintro hnil
    simp [hnil] at hc
  have hlast := List.rdropWhile_last_not test l hne
  rw [List.getLast?_eq_getLast_of_ne_nil hne, Option.mem_some_iff] at hc
  rw [hc] at hlast
  simpa using hlast

theorem mem_rtakeWhile {test : UInt8 → Bool} {l : List UInt8} {c : UInt8}
    (h : c ∈ l.rtakeWhile test) : test c = true := by
  rw [List.rtakeWhile, List.mem_reverse] at h
  exact List.mem_takeWhile_imp h

theorem exists_cut (path : List UInt8) : ∃ d s b t, Cut path d s b t := by
  let q := path.rdropWhile isSlash
  let r := q.rdropWhile fun c => !isSlash c
  have hq : q ++ path.rtakeWhile isSlash = path := List.rdropWhile_append_rtakeWhile
  have hr : r ++ (q.rtakeWhile fun c => !isSlash c) = q := List.rdropWhile_append_rtakeWhile
  have hd : r.rdropWhile isSlash ++ r.rtakeWhile isSlash = r :=
    List.rdropWhile_append_rtakeWhile
  have hqlast : ∀ c ∈ q.getLast?, isSlash c = false := getLast_rdropWhile isSlash path
  have hrlast : ∀ c ∈ r.getLast?, isSlash c = true := fun c hc => by
    simpa using getLast_rdropWhile (fun c => !isSlash c) q c hc
  refine ⟨r.rdropWhile isSlash, r.rtakeWhile isSlash, q.rtakeWhile fun c => !isSlash c,
    path.rtakeWhile isSlash, ⟨?_, getLast_rdropWhile _ _, fun c hc => mem_rtakeWhile hc, ?_,
    fun c hc => mem_rtakeWhile hc, ?_, ?_⟩⟩
  · rw [hd, hr, hq]
  · intro c hc
    simpa using mem_rtakeWhile hc
  · intro hnil
    rw [hnil, List.append_nil] at hd
    rw [hd]
    by_contra hne
    have hin : r.getLast hne ∈ r.getLast? := by simp [List.getLast?_eq_getLast_of_ne_nil hne]
    have hno := getLast_rdropWhile isSlash r (r.getLast hne) (by rw [hd]; exact hin)
    rw [hrlast _ hin] at hno
    cases hno
  · intro hnil
    rw [hnil, List.append_nil] at hr
    -- what is left ends in no slash and in no other byte
    have hempty : r = [] := by
      by_contra hne
      have hin : r.getLast hne ∈ r.getLast? := by simp [List.getLast?_eq_getLast_of_ne_nil hne]
      have hno := hqlast (r.getLast hne) (by rw [← hr]; exact hin)
      rw [hrlast _ hin] at hno
      cases hno
    rw [hempty]
    rfl

theorem Cut.stop (h : Cut path d s b t) :
    backWhile path isSlash path.length = (d ++ s ++ b).length := by
  have hlast : ∀ c ∈ (d ++ s ++ b).getLast?, isSlash c = false := by
    intro c hc
    by_cases hb : b = []
    · have hs := h.last hb
      simp [hb, hs, h.apart hs] at hc
    · rw [List.getLast?_append_of_ne_nil _ hb] at hc
      exact h.word c (List.mem_of_getLast? hc)
  have hrun := backWhile_append h.right hlast []
  rwa [List.append_nil, ← h.eq] at hrun

theorem Cut.start (h : Cut path d s b t) :
    backWhile path (fun c => !isSlash c) (d ++ s ++ b).length = (d ++ s).length := by
  have hlast : ∀ c ∈ (d ++ s).getLast?, (!isSlash c) = false := by
    intro c hc
    by_cases hs : s = []
    · simp [hs, h.apart hs] at hc
    · rw [List.getLast?_append_of_ne_nil _ hs] at hc
      simpa using h.left c (List.mem_of_getLast? hc)
  have hrun : backWhile (d ++ s ++ b ++ t) (fun c => !isSlash c) (d ++ s ++ b).length =
      (d ++ s).length := backWhile_append (fun c hc => by simpa using h.word c hc) hlast t
  rwa [← h.eq] at hrun

theorem Cut.front (h : Cut path d s b t) : backWhile path isSlash (d ++ s).length = d.length := by
  have hrun := backWhile_append h.left h.before (b ++ t)
  rwa [← List.append_assoc, ← h.eq] at hrun

theorem Cut.basename_eq (h : Cut path d s b t) (hb : b ≠ []) : basename path = b := by
  have hpath : path ≠ [] := by
    rw [h.eq]
    simp [hb]
  have hstop : (d ++ s ++ b).length ≠ 0 := by simp [hb]
  have htake : path.take (d ++ s ++ b).length = d ++ s ++ b := by
    rw [h.eq]
    exact List.take_left
  unfold basename
  rw [if_neg hpath, h.stop]
  dsimp only
  rw [if_neg hstop, h.start, htake, List.drop_left]

theorem Cut.dirname_eq (h : Cut path d s b t) (hb : b ≠ []) :
    dirname path = if s = [] then dot else d := by
  have hpath : path ≠ [] := by
    rw [h.eq]
    simp [hb]
  unfold dirname
  rw [if_neg hpath, h.stop]
  dsimp only
  rw [h.start]
  by_cases hs : s = []
  · rw [if_pos hs, if_pos (by simp [hs, h.apart hs])]
  · have htake : path.take d.length = d := by
      rw [h.eq, List.append_assoc, List.append_assoc]
      exact List.take_left
    rw [if_neg hs, if_neg (by simp [hs]), h.front, htake]

theorem Cut.root (h : Cut path d s b t) (hb : b = []) (hne : path ≠ []) :
    basename path = dot ∧ dirname path = dot := by
  have hs := h.last hb
  have hstop := h.stop
  have hstart := h.start
  simp only [hb, hs, h.apart hs, List.append_nil, List.length_nil] at hstop hstart
  constructor
  · simp [basename, hne, hstop]
  · simp [dirname, hne, hstop, hstart]

theorem Cut.parts_eq (h : Cut path d s b t) (hb : b ≠ []) : parts path = parts d ++ [b] := by
  have hslash : ∀ {l : List UInt8}, (∀ c ∈ l, isSlash c = true) → ∀ c ∈ l, c = slash :=
    fun hl c hc => by simpa [isSlash] using hl c hc
  have hword : slash ∉ b := fun hc => by simpa [isSlash] using h.word slash hc
  rw [h.eq, parts_slashes _ (hslash h.right)]
  cases s with
  | nil =>
    rw [h.apart rfl]
    exact parts_word hword hb
  | cons c s =>
    have hc : c = slash := hslash h.left c List.mem_cons_self
    -- the last component stands behind one slash more
    have hshift : ∀ l : List UInt8, (∀ e ∈ l, e = slash) → ∀ u : List UInt8,
        parts (u ++ slash :: (l ++ b)) = parts u ++ parts b := by
      intro l
      induction l with
      | nil => exact fun _ u => parts_append u b
      | cons e l ih =>
        intro hl u
        have he := hl e List.mem_cons_self
        have hrest := ih (fun f hf => hl f (List.mem_cons_of_mem e hf)) []
        rw [List.nil_append] at hrest
        rw [parts_append, he, List.cons_append, hrest]
        rfl
    have hlist : d ++ c :: s ++ b = d ++ slash :: (s ++ b) := by simp [hc]
    rw [hlist, hshift s (fun e he => hslash h.left e (List.mem_cons_of_mem c he)),
      parts_word hword hb]

/-- A path that does not end in a slash has a component, unless it is empty. -/
theorem parts_ne_nil (hd : ∀ c ∈ d.getLast?, isSlash c = false) (hne : d ≠ []) : parts d ≠ [] := by
  obtain ⟨d', s', b', t', hcut⟩ := exists_cut d
  have hb : b' ≠ [] := by
    intro hb
    have hs := hcut.last hb
    have hall : d = t' := by
      rw [hcut.eq, hb, hs, hcut.apart hs]
      rfl
    have hin : d.getLast hne ∈ d.getLast? := by simp [List.getLast?_eq_getLast_of_ne_nil hne]
    have hno := hd _ hin
    rw [hcut.right _ (hall ▸ List.mem_of_getLast? hin)] at hno
    cases hno
  rw [hcut.parts_eq hb]
  simp

theorem absolute_append (hne : d ≠ []) (b : List UInt8) : Absolute (d ++ b) ↔ Absolute d := by
  unfold Absolute
  rw [List.head?_append_of_ne_nil _ hne]

/-- A path is taken apart and put together again exactly when it is relative or has two components,
`.` being one. -/
theorem splits_iff (path : List UInt8) :
    Splits path ↔ (Absolute path → 2 ≤ (parts path).length) := by
  by_cases hne : path = []
  · rw [hne]
    exact iff_of_true (by unfold Splits; decide) fun habs => absurd habs (by decide)
  obtain ⟨d, s, b, t, h⟩ := exists_cut path
  by_cases hb : b = []
  · -- only slashes
    have hs := h.last hb
    have hpath : path = t := by
      rw [h.eq, hb, hs, h.apart hs]
      rfl
    obtain ⟨hbase, hdir⟩ := h.root hb hne
    have habs : Absolute path := by
      cases ht : path with
      | nil => exact absurd ht hne
      | cons c l =>
        have hc : c ∈ t := by
          rw [← hpath, ht]
          exact List.mem_cons_self
        have hslash := h.right c hc
        simpa [Absolute, isSlash] using hslash
    have hparts : parts path = [] := by
      have hnone := parts_slashes (s := t) [] fun c hc => by simpa [isSlash] using h.right c hc
      rw [List.nil_append] at hnone
      rw [hpath, hnone]
      rfl
    refine iff_of_false ?_ fun hlen => ?_
    · rintro ⟨-, -, -, hiff⟩
      rw [hbase, hdir] at hiff
      exact absurd (hiff.mpr habs) (by decide)
    · have htwo := hlen habs
      rw [hparts] at htwo
      cases htwo
  · have hbase := h.basename_eq hb
    have hdir := h.dirname_eq hb
    have hparts := h.parts_eq hb
    have hword : slash ∉ b := fun hc => by simpa [isSlash] using h.word slash hc
    have hcomp : components path = (parts d).filter (· ≠ dot) ++ components b := by
      unfold components
      rw [hparts, List.filter_append, parts_word hword hb]
    by_cases hs : s = []
    · -- one relative component
      have hd := h.apart hs
      have hrel : ¬ Absolute path := by
        intro habs
        have hpath : path = b ++ t := by
          rw [h.eq, hd, hs]
          rfl
        rw [hpath, absolute_append hb] at habs
        exact hword (List.mem_of_mem_head? habs)
      refine iff_of_true ⟨?_, ?_, ?_, ?_⟩ fun habs => absurd habs hrel
      · simp [hdir, hs]
      · simpa [hbase] using hb
      · rw [hdir, if_pos hs, hbase, components_append, hcomp, hd]
        rfl
      · rw [hdir, if_pos hs]
        have hdot : ¬ Absolute (dot ++ slash :: basename path) := by
          rw [absolute_append (by decide)]
          decide
        exact iff_of_false hdot hrel
    · by_cases hd : d = []
      · -- one component behind the root
        have habs : Absolute path := by
          cases hs' : s with
          | nil => exact absurd hs' hs
          | cons c l =>
            have hc := h.left c (by simp [hs'])
            rw [h.eq, hd, hs']
            simpa [Absolute, isSlash] using hc
        refine iff_of_false ?_ fun hlen => ?_
        · rintro ⟨hdne, -⟩
          rw [hdir, if_neg hs] at hdne
          exact hdne hd
        · have htwo := hlen habs
          rw [hparts, hd] at htwo
          simp [parts] at htwo
      · have hpos := List.length_pos_of_ne_nil (parts_ne_nil h.before hd)
        have habs : Absolute path ↔ Absolute d := by
          rw [h.eq, List.append_assoc, List.append_assoc]
          exact absolute_append hd _
        refine iff_of_true ⟨?_, ?_, ?_, ?_⟩ fun _ => ?_
        · rwa [hdir, if_neg hs]
        · simpa [hbase] using hb
        · rw [hdir, if_neg hs, hbase, components_append, hcomp]
          rfl
        · rw [hdir, if_neg hs, habs]
          exact absolute_append hd _
        · rw [hparts]
          simp
          omega

theorem root_not_split : ¬ ∀ path : List UInt8, path ≠ [] → Splits path := by
  intro H
  have h := H [slash] (by simp)
  revert h
  unfold Splits
  decide

end paths

end LosTacOS.Libc
