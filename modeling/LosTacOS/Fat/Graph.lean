import Mathlib.Data.List.Induction
import LosTacOS.Lib.Chain
import LosTacOS.Fat.Volume

/-! What the table and the directories of a volume say: which cluster follows which, and which
clusters the entries of the directories start at. -/
namespace LosTacOS.Fat

/-- The table, and of each entry of a cluster the first byte of its name, its attribute and its
first cluster. Clusters are numbered from 2 on. -/
structure View where
  limit : Nat
  slots : Nat
  root : Nat
  fat : Nat → Nat
  mark : Nat → Nat → UInt8
  attr : Nat → Nat → UInt8
  first : Nat → Nat → Nat

namespace View

def InRange (V : View) (c : Nat) : Prop := 2 ≤ c ∧ c < V.limit

def next (V : View) (c : Nat) : Option Nat :=
  if endOfChain ≤ V.fat c then none else some (V.fat c)

def headOf (n : Nat) : Option Nat := if n = 0 then none else some n

/-- A search that starts at the cluster `d` comes to look at the cluster `c`. -/
inductive Scans (V : View) : Nat → Nat → Prop
  | here {d : Nat} : V.InRange d → Scans V d d
  | next {d e c : Nat} : V.InRange d → (∀ i < V.slots, V.mark d i ≠ 0) → V.next d = some e →
      Scans V e c → Scans V d c

/-- The search comes to the entry `i` of `c`, and compares its name. Names that begin with a dot
are links to the directory itself and to the one above it; no path names them. -/
structure Shown (V : View) (d c i : Nat) : Prop where
  scans : V.Scans d c
  lt : i < V.slots
  before : ∀ j < i, V.mark c j ≠ 0
  used : V.mark c i ≠ 0 ∧ V.mark c i ≠ 0xE5 ∧ V.mark c i ≠ 46
  short : V.attr c i ≠ 0x0F

inductive Dir (V : View) : Nat → Prop
  | root : Dir V V.root
  | sub {d c i : Nat} : Dir V d → V.Shown d c i → Volume.isDirectory (V.attr c i) = true →
      Dir V (V.first c i)

def Entry (V : View) (c i : Nat) : Prop := ∃ d, V.Dir d ∧ V.Shown d c i

def DirCluster (V : View) (c : Nat) : Prop := ∃ d, V.Dir d ∧ V.Scans d c

inductive Source where
  | root
  | entry (c i : Nat)
  | cluster (c : Nat)

def Points (V : View) : Source → Nat → Prop
  | .root, n => V.root = n
  | .entry c i, n => V.Entry c i ∧ V.first c i = n
  | .cluster c, n => V.InRange c ∧ V.next c = some n

structure Runs (V : View) (n : Nat) (l : List Nat) : Prop where
  chain : Chain V.next (headOf n) l none
  inRange : ∀ c ∈ l, V.InRange c

structure WellFormed (V : View) : Prop where
  unique : ∀ {src src' n}, V.InRange n → V.Points src n → V.Points src' n → src = src'
  linked : ∀ {c n}, V.InRange c → V.next c = some n → V.InRange n → V.fat n ≠ 0
  root : ∃ l, V.Runs V.root l
  entry : ∀ {c i}, V.Entry c i → ∃ l, V.Runs (V.first c i) l

variable {V W : View} {c d i n x : Nat} {l : List Nat}

theorem next_eq_some {c n : Nat} (h : V.next c = some n) : V.fat c = n ∧ ¬ endOfChain ≤ V.fat c := by
  unfold next at h
  split at h
  · cases h
  · rename_i hlt
    exact ⟨Option.some.inj h, hlt⟩

theorem Runs.fat_ne (h : V.Runs n l) (hx : x ∈ l) : V.fat x ≠ 0 := by
  intro h0
  have hnext : V.next x = some 0 := by simp [View.next, h0, endOfChain]
  rcases h.chain.next_mem hx with hend | ⟨y, hy, hxy⟩
  · rw [hnext] at hend
    cases hend
  · rw [hnext] at hxy
    cases hxy
    exact absurd (h.inRange 0 hy).1 (by decide)

theorem Runs.next_mem (hl : V.Runs n l) (hmem : c ∈ l)
    (hnext : ¬ endOfChain ≤ V.fat c) : V.fat c ∈ l := by
  have hn : V.next c = some (V.fat c) := if_neg hnext
  cases hl.chain.next_mem hmem with
  | inl he =>
    rw [hn] at he
    cases he
  | inr hz =>
    obtain ⟨z, hz, he⟩ := hz
    rw [hn] at he
    cases he
    exact hz

/-- Sources that are no clusters start chains; two chains with a cluster in common start alike. -/
theorem WellFormed.heads_eq (h : V.WellFormed) {a b : Nat} {sa sb : Source} {pre pre' : List Nat}
    (ha : V.Points sa a) (hb : V.Points sb b) (hsa : ∀ c, sa ≠ .cluster c)
    (hsb : ∀ c, sb ≠ .cluster c) (hx : V.InRange x)
    (hpre : Chain V.next (some a) pre (some x)) (hpre' : Chain V.next (some b) pre' (some x))
    (hin : ∀ y ∈ pre, V.InRange y) (hin' : ∀ y ∈ pre', V.InRange y) : sa = sb := by
  induction pre using List.reverseRecOn generalizing x pre' with
  | nil =>
    cases hpre
    rcases List.eq_nil_or_concat pre' with rfl | ⟨p', y', rfl⟩
    · cases hpre'
      exact h.unique hx ha hb
    · rw [List.concat_eq_append] at hpre' hin'
      obtain ⟨-, hy'⟩ := Chain.snoc_iff.mp hpre'
      exact absurd (h.unique hx ha (show V.Points (.cluster y') a from ⟨hin' y' (by simp), hy'⟩))
        (hsa y')
  | append_singleton p y ih =>
    obtain ⟨hp, hy⟩ := Chain.snoc_iff.mp hpre
    rcases List.eq_nil_or_concat pre' with rfl | ⟨p', y', rfl⟩
    · cases hpre'
      exact absurd (h.unique hx hb (show V.Points (.cluster y) b from ⟨hin y (by simp), hy⟩))
        (hsb y)
    · rw [List.concat_eq_append] at hpre' hin'
      obtain ⟨hp', hy'⟩ := Chain.snoc_iff.mp hpre'
      have hyy : Source.cluster y = .cluster y' := h.unique hx
        (show V.Points (.cluster y) x from ⟨hin y (by simp), hy⟩)
        (show V.Points (.cluster y') x from ⟨hin' y' (by simp), hy'⟩)
      cases hyy
      exact ih (hin y (by simp)) hp hp' (fun z hz => hin z (by simp [hz]))
        (fun z hz => hin' z (by simp [hz]))

theorem headOf_of_mem (h : V.Runs n l) (hx : x ∈ l) : headOf n = some n := by
  unfold headOf
  split
  · rename_i h0
    have hc := h.chain
    rw [headOf, if_pos h0] at hc
    cases l with
    | nil => cases hx
    | cons y l => cases hc.1
  · rfl

/-- Two chains that start at different places are disjoint. -/
theorem WellFormed.apart (h : V.WellFormed) {a b : Nat} {sa sb : Source} {la lb : List Nat}
    (ha : V.Points sa a) (hb : V.Points sb b) (hsa : ∀ c, sa ≠ .cluster c)
    (hsb : ∀ c, sb ≠ .cluster c) (hla : V.Runs a la) (hlb : V.Runs b lb) (hxa : x ∈ la)
    (hxb : x ∈ lb) : sa = sb := by
  have hca := hla.chain
  have hcb := hlb.chain
  rw [headOf_of_mem hla hxa] at hca
  rw [headOf_of_mem hlb hxb] at hcb
  obtain ⟨pre, post, rfl⟩ := List.append_of_mem hxa
  obtain ⟨pre', post', rfl⟩ := List.append_of_mem hxb
  exact h.heads_eq ha hb hsa hsb (hla.inRange x hxa) (Chain.middle_iff.mp hca).1
    (Chain.middle_iff.mp hcb).1 (fun y hy => hla.inRange y (by simp [hy]))
    (fun y hy => hlb.inRange y (by simp [hy]))

theorem Scans.inRange (h : V.Scans d c) : V.InRange c := by
  induction h with
  | here h => exact h
  | next _ _ _ _ ih => exact ih

theorem DirCluster.inRange (h : V.DirCluster c) : V.InRange c := by
  obtain ⟨d, -, hs⟩ := h
  exact hs.inRange

theorem Scans.mem (h : V.Scans d c) (hl : Chain V.next (some d) l none) : c ∈ l := by
  induction h generalizing l with
  | here _ =>
    cases l with
    | nil => cases hl
    | cons y l =>
      cases hl.1
      exact List.mem_cons_self
  | next _ _ hnext _ ih =>
    cases l with
    | nil => cases hl
    | cons y l =>
      cases hl.1
      refine List.mem_cons_of_mem _ (ih ?_)
      have h2 := hl.2
      rwa [hnext] at h2

/-- A directory starts where the root or an entry of a directory points to. -/
theorem Dir.source (h : V.Dir d) :
    ∃ src, V.Points src d ∧ (∀ c, src ≠ .cluster c) ∧
      ∀ c i, src = .entry c i → Volume.isDirectory (V.attr c i) = true := by
  cases h with
  | root => exact ⟨.root, rfl, fun _ h => Source.noConfusion h, fun _ _ h => Source.noConfusion h⟩
  | sub hd hshown hattr =>
    refine ⟨.entry _ _, ⟨⟨_, hd, hshown⟩, rfl⟩, fun _ h => Source.noConfusion h, ?_⟩
    intro c i he
    cases he
    exact hattr

theorem WellFormed.dir (h : V.WellFormed) (hd : V.Dir d) : ∃ l, V.Runs d l := by
  cases hd with
  | root => exact h.root
  | sub hd hshown _ => exact h.entry ⟨_, hd, hshown⟩

theorem DirCluster.chain (h : V.WellFormed) (hc : V.DirCluster c) :
    ∃ d l, V.Dir d ∧ V.Runs d l ∧ c ∈ l := by
  obtain ⟨d, hd, hscans⟩ := hc
  obtain ⟨l, hl⟩ := h.dir hd
  have hne : d ≠ 0 := by
    rintro rfl
    cases hscans with
    | here hr => exact absurd hr.1 (by decide)
    | next hr _ _ _ => exact absurd hr.1 (by decide)
  have hchain := hl.chain
  rw [headOf, if_neg hne] at hchain
  exact ⟨d, l, hd, hl, hscans.mem hchain⟩

/-- The clusters of a file are no clusters of a directory. -/
theorem WellFormed.not_dirCluster (h : V.WellFormed) (he : V.Entry c i)
    (hattr : Volume.isDirectory (V.attr c i) = false) (hl : V.Runs (V.first c i) l) (hx : x ∈ l) :
    ¬ V.DirCluster x := by
  intro hdir
  obtain ⟨d, l', hd, hl', hx'⟩ := hdir.chain h
  obtain ⟨src, hsrc, hno, hisdir⟩ := hd.source
  have heq := h.apart (show V.Points (.entry c i) _ from ⟨he, rfl⟩) hsrc
    (fun _ hc => Source.noConfusion hc) hno hl hl' hx hx'
  have := hisdir c i heq.symm
  rw [hattr] at this
  cases this

theorem DirCluster.fat_ne (h : V.WellFormed) (hc : V.DirCluster c) : V.fat c ≠ 0 := by
  obtain ⟨d, l, -, hl, hmem⟩ := hc.chain h
  exact hl.fat_ne hmem

structure Keeps (V W : View) : Prop where
  limit : W.limit = V.limit
  slots : W.slots = V.slots
  root : W.root = V.root
  fat : ∀ {c}, V.DirCluster c → W.fat c = V.fat c
  mark : ∀ {c i}, V.DirCluster c → i < V.slots → W.mark c i = V.mark c i
  attr : ∀ {c i}, V.DirCluster c → i < V.slots → W.attr c i = V.attr c i
  first : ∀ {c i}, V.DirCluster c → i < V.slots → Volume.isDirectory (V.attr c i) = true →
    W.first c i = V.first c i

theorem Keeps.inRange (h : Keeps V W) : W.InRange c ↔ V.InRange c := by
  rw [InRange, InRange, h.limit]

theorem Scans.start (h : V.Scans d c) : V.InRange d := by
  cases h with
  | here h => exact h
  | next h _ _ _ => exact h

theorem Scans.snoc {e : Nat} (h : V.Scans d c) (hmark : ∀ i < V.slots, V.mark c i ≠ 0)
    (hnext : V.next c = some e) (he : V.InRange e) : V.Scans d e := by
  induction h with
  | here hr => exact .next hr hmark hnext (.here he)
  | next hr hm hn _ ih => exact .next hr hm hn (ih hmark hnext)

theorem Keeps.next (h : Keeps V W) (hc : V.DirCluster c) : W.next c = V.next c := by
  rw [View.next, View.next, h.fat hc]

theorem Keeps.scans_mp {D : Nat} (h : Keeps V W) (hD : V.Dir D) (hs : W.Scans d c)
    (hd : V.InRange d → V.Scans D d) : V.Scans d c := by
  induction hs with
  | here hr => exact .here (h.inRange.mp hr)
  | next hr hmark hnext _ ih =>
    have hr' := h.inRange.mp hr
    have hdir : V.DirCluster _ := ⟨D, hD, hd hr'⟩
    have hmark' : ∀ i < V.slots, V.mark _ i ≠ 0 := fun i hi => by
      rw [← h.mark hdir hi]
      exact hmark i (h.slots.symm ▸ hi)
    rw [h.next hdir] at hnext
    exact .next hr' hmark' hnext (ih fun he => (hd hr').snoc hmark' hnext he)

theorem Keeps.scans_mpr {D : Nat} (h : Keeps V W) (hD : V.Dir D) (hs : V.Scans d c)
    (hd : V.Scans D d) : W.Scans d c := by
  induction hs with
  | here hr => exact .here (h.inRange.mpr hr)
  | next hr hmark hnext hs ih =>
    have hdir : V.DirCluster _ := ⟨D, hD, hd⟩
    refine .next (h.inRange.mpr hr) (fun i hi => ?_) ((h.next hdir).trans hnext)
      (ih (hd.snoc hmark hnext hs.start))
    rw [h.slots] at hi
    rw [h.mark hdir hi]
    exact hmark i hi

theorem Keeps.shown (h : Keeps V W) (hd : V.Dir d) : W.Shown d c i ↔ V.Shown d c i := by
  constructor
  · intro hs
    have hscans := h.scans_mp hd hs.scans .here
    have hdir : V.DirCluster c := ⟨d, hd, hscans⟩
    have hi : i < V.slots := h.slots ▸ hs.lt
    refine ⟨hscans, hi, fun j hj => ?_, ?_, ?_⟩
    · rw [← h.mark hdir (hj.trans hi)]
      exact hs.before j hj
    · rw [← h.mark hdir hi]
      exact hs.used
    · rw [← h.attr hdir hi]
      exact hs.short
  · intro hs
    have hdir : V.DirCluster c := ⟨d, hd, hs.scans⟩
    refine ⟨h.scans_mpr hd hs.scans (.here hs.scans.start), h.slots.symm ▸ hs.lt, fun j hj => ?_,
      ?_, ?_⟩
    · rw [h.mark hdir (hj.trans hs.lt)]
      exact hs.before j hj
    · rw [h.mark hdir hs.lt]
      exact hs.used
    · rw [h.attr hdir hs.lt]
      exact hs.short

theorem Entry.dirCluster (h : V.Entry c i) : V.DirCluster c ∧ i < V.slots := by
  obtain ⟨d, hd, hs⟩ := h
  exact ⟨⟨d, hd, hs.scans⟩, hs.lt⟩

theorem Keeps.dir (h : Keeps V W) : W.Dir d ↔ V.Dir d := by
  constructor
  · intro hd
    induction hd with
    | root =>
      rw [h.root]
      exact .root
    | sub _ hs hattr ih =>
      have hs' := (h.shown ih).mp hs
      obtain ⟨hdir, hi⟩ := Entry.dirCluster ⟨_, ih, hs'⟩
      rw [h.attr hdir hi] at hattr
      rw [h.first hdir hi hattr]
      exact .sub ih hs' hattr
  · intro hd
    induction hd with
    | root =>
      rw [← h.root]
      exact .root
    | sub hd hs hattr ih =>
      obtain ⟨hdir, hi⟩ := Entry.dirCluster ⟨_, hd, hs⟩
      rw [← h.first hdir hi hattr]
      refine .sub ih ((h.shown hd).mpr hs) ?_
      rw [h.attr hdir hi]
      exact hattr

theorem Keeps.entry (h : Keeps V W) : W.Entry c i ↔ V.Entry c i := by
  constructor
  · rintro ⟨d, hd, hs⟩
    exact ⟨d, h.dir.mp hd, (h.shown (h.dir.mp hd)).mp hs⟩
  · rintro ⟨d, hd, hs⟩
    exact ⟨d, h.dir.mpr hd, (h.shown hd).mpr hs⟩

theorem Keeps.dirCluster (h : Keeps V W) : W.DirCluster c ↔ V.DirCluster c := by
  constructor
  · rintro ⟨d, hd, hs⟩
    exact ⟨d, h.dir.mp hd, h.scans_mp (h.dir.mp hd) hs .here⟩
  · rintro ⟨d, hd, hs⟩
    exact ⟨d, h.dir.mpr hd, h.scans_mpr hd hs (.here hs.start)⟩

theorem Keeps.entry_attr (h : Keeps V W) (he : V.Entry c i) : W.attr c i = V.attr c i :=
  h.attr he.dirCluster.1 he.dirCluster.2

section moves

theorem Runs.carry (h : V.Runs n l) (hlimit : W.limit = V.limit)
    (hfat : ∀ x ∈ l, W.fat x = V.fat x) : W.Runs n l := by
  refine ⟨h.chain.congr fun x hx => ?_, fun x hx => ?_⟩
  · rw [View.next, View.next, hfat x hx]
  · have := h.inRange x hx
    rwa [InRange, hlimit]

def Takes (V W : View) : Prop :=
  ∀ c, V.InRange c → W.fat c = V.fat c ∨ (V.fat c = 0 ∧ endOfChain ≤ W.fat c)

theorem Takes.of_ne (h : Takes V W) (hc : V.InRange c) (h0 : V.fat c ≠ 0) : W.fat c = V.fat c := by
  rcases h c hc with h | ⟨h, -⟩
  · exact h
  · exact absurd h h0

theorem Takes.next (h : Takes V W) (hc : V.InRange c) (hn : W.next c = some n) :
    V.next c = some n := by
  obtain ⟨hfat, hlt⟩ := next_eq_some hn
  rcases h c hc with heq | ⟨-, hend⟩
  · rw [View.next, ← heq, if_neg hlt, hfat]
  · exact absurd hend hlt

theorem Takes.runs (h : Takes V W) (hlimit : W.limit = V.limit) (hl : V.Runs n l) : W.Runs n l :=
  hl.carry hlimit fun x hx => h.of_ne (hl.inRange x hx) (hl.fat_ne hx)

theorem Takes.points (h : Takes V W) (k : Keeps V W)
    (hfirst : ∀ {c i}, V.Entry c i → W.first c i = V.first c i) {src : Source}
    (hp : W.Points src n) : V.Points src n := by
  cases src with
  | root => exact k.root.symm.trans hp
  | entry c i =>
    have he := k.entry.mp hp.1
    exact ⟨he, (hfirst he).symm.trans hp.2⟩
  | cluster c =>
    have hc := k.inRange.mp hp.1
    exact ⟨hc, h.next hc hp.2⟩

theorem WellFormed.take (h : V.WellFormed) (k : Keeps V W) (ht : Takes V W)
    (hfirst : ∀ {c i}, V.Entry c i → W.first c i = V.first c i) : W.WellFormed := by
  refine ⟨fun hn hp hp' => ?_, fun hc hnext hn => ?_, ?_, fun he => ?_⟩
  · exact h.unique (k.inRange.mp hn) (ht.points k hfirst hp) (ht.points k hfirst hp')
  · have hc' := k.inRange.mp hc
    have hn' := k.inRange.mp hn
    have hne := h.linked hc' (ht.next hc' hnext) hn'
    rw [ht.of_ne hn' hne]
    exact hne
  · obtain ⟨l, hl⟩ := h.root
    rw [k.root]
    exact ⟨l, ht.runs k.limit hl⟩
  · have he' := k.entry.mp he
    obtain ⟨l, hl⟩ := h.entry he'
    rw [hfirst he']
    exact ⟨l, ht.runs k.limit hl⟩

structure Fresh (V : View) (n : Nat) : Prop where
  inRange : V.InRange n
  ends : endOfChain ≤ V.fat n
  alone : ∀ src, ¬ V.Points src n

theorem Fresh.next (h : V.Fresh n) : V.next n = none := if_pos h.ends

theorem WellFormed.free_alone (h : V.WellFormed) (hn : V.InRange n) (h0 : V.fat n = 0)
    (src : Source) : ¬ V.Points src n := by
  intro hp
  have hhead : headOf n = some n := if_neg (by have := hn.1; omega)
  cases src with
  | root =>
    obtain ⟨l, hl⟩ := h.root
    have hchain := hl.chain
    rw [show V.root = n from hp, hhead] at hchain
    exact hl.fat_ne (Scans.mem (.here hn) hchain) h0
  | entry c i =>
    obtain ⟨l, hl⟩ := h.entry hp.1
    have hchain := hl.chain
    rw [show V.first c i = n from hp.2, hhead] at hchain
    exact hl.fat_ne (Scans.mem (.here hn) hchain) h0
  | cluster c => exact h.linked hp.1 hp.2 hn h0

theorem WellFormed.take_fresh (h : V.WellFormed) (k : Keeps V W) (ht : Takes V W)
    (hfirst : ∀ {c i}, V.Entry c i → W.first c i = V.first c i) (hn : V.InRange n)
    (h0 : V.fat n = 0) (hend : endOfChain ≤ W.fat n) : W.Fresh n :=
  ⟨k.inRange.mpr hn, hend, fun src hp => h.free_alone hn h0 src (ht.points k hfirst hp)⟩

/-- Behind the last cluster `x` of a chain comes `n`. -/
structure Links (V W : View) (x n : Nat) : Prop where
  inRange : V.InRange x
  last : V.next x = none
  fat : W.fat x = n
  rest : ∀ c, V.InRange c → c ≠ x → W.fat c = V.fat c
  first : ∀ {c i}, V.Entry c i → W.first c i = V.first c i

theorem Links.points (h : Links V W x n) (k : Keeps V W) {src : Source} {m : Nat}
    (hp : W.Points src m) : V.Points src m ∨ (src = .cluster x ∧ m = n) := by
  cases src with
  | root => exact .inl (k.root.symm.trans hp)
  | entry c i =>
    have he := k.entry.mp hp.1
    exact .inl ⟨he, (h.first he).symm.trans hp.2⟩
  | cluster c =>
    have hc := k.inRange.mp hp.1
    obtain ⟨hfat, hlt⟩ := next_eq_some hp.2
    by_cases hcx : c = x
    · subst hcx
      exact .inr ⟨rfl, hfat.symm.trans h.fat⟩
    · refine .inl ⟨hc, ?_⟩
      rw [View.next, ← h.rest c hc hcx, if_neg hlt, hfat]

/-- A chain that ends at `x` goes on to `n`; the others are as they were. -/
theorem Links.runs (h : Links V W x n) (hlimit : W.limit = V.limit) (hn : V.Fresh n)
    (hne : x ≠ n) (hlt : n < endOfChain) {a : Nat} (hl : V.Runs a l) :
    W.Runs a (if x ∈ l then l ++ [n] else l) := by
  split
  · rename_i hx
    obtain ⟨pre, post, rfl⟩ := List.append_of_mem hx
    obtain ⟨hpre, hpost⟩ := Chain.middle_iff.mp hl.chain
    rw [h.last] at hpost
    have hnil : post = [] := by
      cases post with
      | nil => rfl
      | cons y post => cases hpost.1
    subst hnil
    have hxpre : ∀ y ∈ pre, y ≠ x := by
      rintro y hy rfl
      rcases hpre.next_mem hy with he | ⟨z, -, he⟩ <;> rw [h.last] at he <;> cases he
    have hnextx : W.next x = some n := by
      rw [View.next, h.fat, if_neg (by omega)]
    have hnextn : W.next n = none := by
      rw [View.next, h.rest n hn.inRange hne.symm, if_pos hn.ends]
    refine ⟨?_, fun y hy => ?_⟩
    · rw [List.append_assoc]
      refine Chain.middle_iff.mpr ⟨hpre.congr fun y hy => ?_, ?_⟩
      · rw [View.next, View.next, h.rest y (hl.inRange y (by simp [hy])) (hxpre y hy)]
      · rw [hnextx]
        exact ⟨rfl, hnextn⟩
    · have hy' : V.InRange y := by
        rcases List.mem_append.mp hy with hy | hy
        · exact hl.inRange y hy
        · rw [List.mem_singleton.mp hy]
          exact hn.inRange
      rwa [InRange, hlimit]
  · rename_i hx
    refine hl.carry hlimit fun y hy => h.rest y (hl.inRange y hy) ?_
    rintro rfl
    exact hx hy

theorem WellFormed.link (h : V.WellFormed) (k : Keeps V W) (hlink : Links V W x n)
    (hn : V.Fresh n) (hne : x ≠ n) (hlt : n < endOfChain) : W.WellFormed := by
  refine ⟨fun {src src' m} hm hp hp' => ?_, fun {c m} hc hnext hm => ?_, ?_, fun he => ?_⟩
  · rcases hlink.points k hp with hv | ⟨rfl, rfl⟩ <;>
      rcases hlink.points k hp' with hv' | ⟨rfl, hmn⟩
    · exact h.unique (k.inRange.mp hm) hv hv'
    · subst hmn
      exact absurd hv (hn.alone _)
    · exact absurd hv' (hn.alone _)
    · rfl
  · have hm' := k.inRange.mp hm
    by_cases hmx : m = x
    · subst hmx
      rw [hlink.fat]
      have := hn.inRange.1
      omega
    · rw [hlink.rest m hm' hmx]
      rcases hlink.points k (show W.Points (.cluster c) m from ⟨hc, hnext⟩) with hv | ⟨-, rfl⟩
      · exact h.linked hv.1 hv.2 hm'
      · have := hn.ends
        have : 0 < endOfChain := by decide
        omega
  · obtain ⟨l, hl⟩ := h.root
    rw [k.root]
    exact ⟨_, hlink.runs k.limit hn hne hlt hl⟩
  · have he' := k.entry.mp he
    obtain ⟨l, hl⟩ := h.entry he'
    rw [hlink.first he']
    exact ⟨_, hlink.runs k.limit hn hne hlt hl⟩

theorem WellFormed.publish (h : V.WellFormed) (k : Keeps V W)
    (hfat : ∀ c, V.InRange c → W.fat c = V.fat c) (hn : V.Fresh n)
    (hfirst : W.first c i = n)
    (hrest : ∀ {c' i'}, V.Entry c' i' → (c', i') ≠ (c, i) → W.first c' i' = V.first c' i') :
    W.WellFormed := by
  have hnext : ∀ {a b}, V.InRange a → W.next a = some b → V.next a = some b := by
    intro a b ha hab
    rwa [View.next, hfat a ha] at hab
  have hpoints : ∀ {src m}, W.Points src m → V.Points src m ∨ (src = .entry c i ∧ m = n) := by
    intro src m hp
    cases src with
    | root => exact .inl (k.root.symm.trans hp)
    | entry c' i' =>
      have he := k.entry.mp hp.1
      by_cases heq : (c', i') = (c, i)
      · cases heq
        exact .inr ⟨rfl, hp.2.symm.trans hfirst⟩
      · exact .inl ⟨he, (hrest he heq).symm.trans hp.2⟩
    | cluster c' =>
      have hc' := k.inRange.mp hp.1
      exact .inl ⟨hc', hnext hc' hp.2⟩
  refine ⟨fun {src src' m} hm hp hp' => ?_, fun {c' m} hc' hn' hm => ?_, ?_, fun {c' i'} he => ?_⟩
  · rcases hpoints hp with hv | ⟨rfl, rfl⟩ <;> rcases hpoints hp' with hv' | ⟨rfl, hmn⟩
    · exact h.unique (k.inRange.mp hm) hv hv'
    · subst hmn
      exact absurd hv (hn.alone _)
    · exact absurd hv' (hn.alone _)
    · rfl
  · rw [hfat m (k.inRange.mp hm)]
    have hc := k.inRange.mp hc'
    exact h.linked hc (hnext hc hn') (k.inRange.mp hm)
  · obtain ⟨l, hl⟩ := h.root
    rw [k.root]
    exact ⟨l, hl.carry k.limit fun x hx => hfat x (hl.inRange x hx)⟩
  · have he' := k.entry.mp he
    by_cases heq : (c', i') = (c, i)
    · cases heq
      rw [hfirst]
      refine ⟨[n], ?_, fun x hx => ?_⟩
      · rw [headOf, if_neg (by have := hn.inRange.1; omega)]
        refine ⟨rfl, ?_⟩
        rw [View.next, hfat n hn.inRange]
        exact hn.next
      · rw [List.mem_singleton.mp hx]
        exact k.inRange.mpr hn.inRange
    · obtain ⟨l, hl⟩ := h.entry he'
      rw [hrest he' heq]
      exact ⟨l, hl.carry k.limit fun x hx => hfat x (hl.inRange x hx)⟩

end moves

end View

end LosTacOS.Fat
