import LosTacOS.Os.Existence
import LosTacOS.Os.Lookup

/-! What `find` and `sys_open` hand to a mounted file system. `find` rebuilds the rest of the path
from the component that it misses, `sys_open` cuts the path of the mount off the text. -/
namespace LosTacOS.Os

def segments (text : List Char) : List (List Char) := (text.splitOn '/').filter (· ≠ [])

def joined (ns : List (List Char)) : List Char := List.intercalate ['/'] ns

/-- Where the loop of `find` misses a component: the state then, the node it stands on, the
component and the text behind its slash. -/
structure Miss where
  kernel : Kernel
  node : Nat
  part : List Char
  rest : Option (List Char)

namespace Miss

def left (m : Miss) : List (List Char) := m.part :: segments (m.rest.getD [])

/-- The text for the file system, from a path with `beyond` behind its terminator. -/
def handed (m : Miss) (beyond : List Char) : Option (List Char) :=
  (some (relpath (cut m.part) (m.rest.getD beyond))).filter (·.length < 256)

def ask (env : Env) (find : Kernel.Finder) (m : Miss) (fs : FileSystem) (sub : List Char) :
    Option (Option Nat × Kernel) := do
  let (handle, k) ← m.kernel.fsOpen env find fs (m.kernel.node m.node).mountData sub
  some (handle.map fun _ => m.node, handle.elim k (k.fsClose fs))

end Miss

def behindSlash : List Char → List Char
  | '/' :: t => t
  | t => t

def Tight (r : List Char) : Prop := r = [] ∨ [] ∉ (behindSlash r).splitOn '/'

section text

variable {part r t u : List Char}

theorem segments_append (t u : List Char) : segments (t ++ '/' :: u) = segments t ++ segments u := by
  rw [segments, List.splitOn_append_cons_self, List.filter_append]
  rfl

theorem segments_slash (t : List Char) : segments ('/' :: t) = segments t := segments_append [] t

theorem segments_nil : segments [] = [] := rfl

theorem segments_dropWhile (t : List Char) : segments (t.dropWhile (· = '/')) = segments t := by
  induction t with
  | nil => rfl
  | cons c t ih =>
    by_cases hc : c = '/'
    · rw [List.dropWhile_cons_of_pos (by simpa using hc), ih, hc, segments_slash]
    · rw [List.dropWhile_cons_of_neg (by simpa using hc)]

theorem segments_behindSlash (r : List Char) : segments (behindSlash r) = segments r := by
  unfold behindSlash
  split
  · rw [segments_slash]
  · rfl

theorem mem_segments (h : t ∈ segments r) : '/' ∉ t ∧ t ≠ [] := by
  obtain ⟨hm, hne⟩ := List.mem_filter.mp h
  refine ⟨?_, by simpa using hne⟩
  clear h hne
  induction r generalizing t with
  | nil =>
    rw [List.splitOn_nil, List.mem_singleton] at hm
    rw [hm]
    exact List.not_mem_nil
  | cons c r ih =>
    by_cases hc : c = '/'
    · have hsplit : (c :: r).splitOn '/' = [] :: r.splitOn '/' := by
        rw [hc]
        exact List.splitOn_append_cons_self [] r
      rw [hsplit] at hm
      rcases List.mem_cons.mp hm with rfl | hm
      · exact List.not_mem_nil
      · exact ih hm
    · obtain ⟨x, xs, hx⟩ := List.exists_cons_of_ne_nil (List.splitOn_ne_nil '/' r)
      have hsplit : (c :: r).splitOn '/' = (c :: x) :: xs := by
        rw [List.splitOn_cons_eq_if_modifyHead, hx]
        simp [hc]
      rw [hsplit] at hm
      rw [hx] at ih
      rcases List.mem_cons.mp hm with rfl | hm
      · have hxs := ih List.mem_cons_self
        simp [Ne.symm hc, hxs]
      · exact ih (List.mem_cons_of_mem _ hm)

theorem segments_joined {ns : List (List Char)} (h : ∀ s ∈ ns, '/' ∉ s ∧ s ≠ []) :
    segments (joined ns) = ns := by
  cases ns with
  | nil => rfl
  | cons s ns =>
    rw [segments, joined, List.splitOn_intercalate '/' (fun l hl => (h l hl).1) (List.cons_ne_nil _ _)]
    exact List.filter_eq_self.mpr fun l hl => by simpa using (h l hl).2

/-- The text that `find` rebuilds when there is anything behind the slash. -/
theorem relpath_cons (hr : r ≠ []) : relpath part r = part ++ '/' :: behindSlash r := by
  cases r with
  | nil => exact absurd rfl hr
  | cons c r =>
    by_cases hc : c = '/'
    · rw [hc]
      rfl
    · have hno : ∀ t, c :: r = '/' :: t → False := fun t ht => hc (List.cons.inj ht).1
      have hrel : relpath part (c :: r) = part ++ '/' :: c :: r := by
        rw [relpath]
        · exact nofun
        · exact hno
      have hbehind : behindSlash (c :: r) = c :: r := by
        rw [behindSlash]
        exact hno
      rw [hrel, hbehind]

/-- It is the components joined by single slashes exactly when the component was not cut and the
rest is tight. -/
theorem relpath_joined (hs : '/' ∉ part) (hne : part ≠ []) :
    relpath (cut part) r = joined (part :: segments r) ↔ part.length ≤ 127 ∧ Tight r := by
  have hcut : cut part = part ↔ part.length ≤ 127 := by
    unfold cut
    exact List.take_eq_self_iff part
  have hcs : '/' ∉ cut part := fun h => hs (List.mem_of_mem_take h)
  by_cases hr : r = []
  · subst hr
    have hrel : relpath (cut part) [] = cut part := rfl
    have hone : joined (part :: segments []) = part := List.intercalate_singleton
    rw [hrel, hone, hcut]
    exact ⟨fun h => ⟨h, Or.inl rfl⟩, fun h => h.1⟩
  · rw [relpath_cons hr, ← segments_behindSlash r]
    have htight : Tight r ↔ [] ∉ (behindSlash r).splitOn '/' :=
      ⟨fun h => h.resolve_left hr, Or.inr⟩
    rw [htight, ← hcut]
    generalize behindSlash r = t
    constructor
    · intro he
      have hsplit := congrArg (fun x => x.splitOn '/') he
      have hall : ∀ l ∈ part :: segments t, '/' ∉ l := by
        intro l hl
        rcases List.mem_cons.mp hl with rfl | hl
        · exact hs
        · exact (mem_segments hl).1
      simp only [joined] at hsplit
      rw [List.splitOn_append_cons_self, List.splitOn_eq_singleton hcs,
        List.splitOn_intercalate '/' hall (List.cons_ne_nil _ _)] at hsplit
      obtain ⟨hpart, hrest⟩ := List.cons.inj hsplit
      replace hrest : t.splitOn '/' = segments t := hrest
      refine ⟨hpart, fun hmem => ?_⟩
      rw [hrest] at hmem
      exact (mem_segments hmem).2 rfl
    · rintro ⟨hc, hno⟩
      have hnames : segments t = t.splitOn '/' :=
        List.filter_eq_self.mpr fun l hl => by
          rw [decide_eq_true_iff]
          rintro rfl
          exact hno hl
      rw [hc, hnames, joined, List.intercalate_cons_of_ne_nil (List.splitOn_ne_nil '/' t),
        List.intercalate_splitOn]
      simp

end text

namespace Kernel

variable {env : Env} {k : Kernel} {path : List Char} {m : Miss} {find : Finder} {n : Nat}
  {ps : List (List Char × Option (List Char))}

/-- The loop of `find`, up to the component that it misses. -/
def missIn (env : Env) (find : Finder) :
    List (List Char × Option (List Char)) → Nat → Kernel → Option Miss
  | [], _, _ => none
  | (part, rest) :: ps, n, k =>
    if cut part = [] ∨ cut part = ['.'] then missIn env find ps n k
    else if cut part = ['.', '.'] then missIn env find ps ((k.node n).parent.getD n) k
    else
      match k.findIn n (cut part) with
      | none => some ⟨k, n, part, rest⟩
      | some c => do
        let (next, k) ← followLinks env find 8 c k
        let c ← next
        missIn env find ps c k

def missTo (env : Env) : Nat → Kernel → List Char → Option Miss
  | 0, _, _ => none
  | n + 1, k, path =>
    match path with
    | [] => none
    | '/' :: rest => missIn env (findTo env n) (parts (rest.length + 1) rest) k.root k
    | _ => missIn env (findTo env n) (parts (path.length + 1) path) k.getProcessCwd k

def miss (env : Env) (k : Kernel) (path : List Char) : Option Miss := missTo env env.fuel k path

section miss

/-- The component that is missed is one of the path, and the loop ends with the question to the file
system. -/
theorem missIn_spec (h : missIn env find ps n k = some m) :
    (m.part, m.rest) ∈ ps ∧ m.part ≠ [] ∧ walkParts env find ps n k =
      m.kernel.findMounted env find m.node (cut m.part) m.rest := by
  induction ps generalizing n k with
  | nil => cases h
  | cons p ps ih =>
    obtain ⟨part, rest⟩ := p
    rw [missIn] at h
    rw [walkParts]
    dsimp only
    split at h
    · rename_i hskip
      obtain ⟨hmem, hne, hw⟩ := ih h
      exact ⟨List.mem_cons_of_mem _ hmem, hne, by rw [if_pos hskip, hw]⟩
    · rename_i hskip
      rw [if_neg hskip]
      split at h
      · rename_i hup
        obtain ⟨hmem, hne, hw⟩ := ih h
        exact ⟨List.mem_cons_of_mem _ hmem, hne, by rw [if_pos hup, hw]⟩
      · rename_i hup
        rw [if_neg hup]
        cases hc : k.findIn n (cut part) with
        | none =>
          rw [hc] at h
          cases h
          refine ⟨List.mem_cons_self, fun hnil => hskip (Or.inl ?_), rfl⟩
          simp only at hnil
          rw [hnil]
          rfl
        | some c =>
          rw [hc] at h
          simp only [Option.bind_eq_bind, Option.bind_eq_some_iff] at h
          obtain ⟨⟨next, q⟩, hl, d, hd, h⟩ := h
          simp only at hd h
          subst hd
          obtain ⟨hmem, hne, hw⟩ := ih h
          refine ⟨List.mem_cons_of_mem _ hmem, hne, ?_⟩
          simp only [hl, Option.bind_eq_bind, Option.bind_some, hw]

theorem miss_spec (h : k.miss env path = some m) :
    '/' ∉ m.part ∧ m.part ≠ [] ∧ k.find env path =
      m.kernel.findMounted env (findTo env (env.fuel - 1)) m.node (cut m.part) m.rest := by
  unfold miss at h
  unfold Kernel.find
  cases hf : env.fuel with
  | zero =>
    rw [hf] at h
    cases h
  | succ j =>
    rw [hf] at h
    cases path with
    | nil => cases h
    | cons c rest =>
      by_cases hc : c = '/'
      · rw [hc] at h ⊢
        obtain ⟨hmem, hne, hw⟩ := missIn_spec h
        exact ⟨parts_noSlash hmem, hne, hw⟩
      · have habs : ∀ t, c :: rest = '/' :: t → False := fun t ht => hc (List.cons.inj ht).1
        have hmiss : missTo env (j + 1) k (c :: rest) = missIn env (findTo env j)
            (parts (rest.length + 2) (c :: rest)) k.getProcessCwd k := by
          rw [missTo]
          · rfl
          · exact nofun
          · exact habs
        rw [hmiss] at h
        obtain ⟨hmem, hne, hw⟩ := missIn_spec h
        refine ⟨parts_noSlash hmem, hne, ?_⟩
        rw [findTo]
        · exact hw
        · exact nofun
        · exact habs

end miss

section mounts

/-- The test of `find_mount`: the mount point ends at a slash of the path or at its end. -/
theorem mountTest_iff {point path : List Char} : (point.isPrefixOf path &&
      ((path.drop point.length).head? = some '/' || path.length = point.length)) = true ↔
    ∃ t, path = point ++ t ∧ (t = [] ∨ t.head? = some '/') := by
  rw [Bool.and_eq_true, Bool.or_eq_true, List.isPrefixOf_iff_prefix]
  constructor
  · rintro ⟨⟨t, rfl⟩, hend⟩
    rw [List.drop_left, List.length_append] at hend
    refine ⟨t, rfl, ?_⟩
    cases hend with
    | inl hslash => exact Or.inr (of_decide_eq_true hslash)
    | inr hlen =>
      have hlen := of_decide_eq_true hlen
      exact Or.inl (List.eq_nil_of_length_eq_zero (by omega))
  · rintro ⟨t, rfl, hend⟩
    rw [List.drop_left, List.length_append]
    refine ⟨⟨t, rfl⟩, ?_⟩
    cases hend with
    | inl hnil =>
      subst hnil
      exact Or.inr (decide_eq_true rfl)
    | inr hslash => exact Or.inl (decide_eq_true hslash)

/-- The mount that covers a path ends at one of its slashes or at its end. -/
theorem findMount_covers {path : List Char} {x : Nat} (h : k.findMount path = some x) :
    ∃ t, path = (k.mounts.cell x).path ++ t ∧ (t = [] ∨ t.head? = some '/') :=
  mountTest_iff.mp (findMount_some h).2

/-- What `sys_open` hands over are the components behind the path of the mount. -/
theorem answering_segments {path sub : List Char} {x : Nat} {fs : FileSystem}
    (h : k.answering path = some (x, fs, sub)) :
    segments path = segments (k.mounts.cell x).path ++ segments sub := by
  unfold answering at h
  simp only [Option.bind_eq_bind, Option.bind_eq_some_iff] at h
  obtain ⟨y, hy, fs', _, h⟩ := h
  split at h
  · obtain ⟨rfl, rfl, rfl⟩ : y = x ∧ fs' = fs ∧ _ = sub := by simpa using h
    obtain ⟨t, ht, hend⟩ := findMount_covers hy
    have hdrop : path.drop (k.mounts.cell y).path.length = t := by
      rw [ht, List.drop_left]
    rw [hdrop, segments_dropWhile, ht]
    cases t with
    | nil => rw [List.append_nil, segments_nil, List.append_nil]
    | cons c t =>
      obtain hend | hend := hend
      · cases hend
      · rw [Option.some.inj hend, segments_append, segments_slash]
  · cases h

end mounts

/-- The string is the rest of the path, whatever lies behind its terminator, and `sys_open` hands
over the same components. -/
structure Hands (env : Env) (k : Kernel) (path : List Char) (m : Miss) : Prop where
  exact : ∀ beyond, m.handed beyond = some (joined m.left)
  same : ∀ a x fs sub s, k.absPath env path = some a → k.answering a = some (x, fs, sub) →
    m.handed env.beyond = some s → segments sub = segments s

/-- There is a slash behind the component, the component fits its buffer and the rest its own, no
slash of the rest is repeated or last, and the components of the mount that `sys_open` asks are
those before the missing one. -/
structure Clean (env : Env) (k : Kernel) (path : List Char) (m : Miss) : Prop where
  slash : ∃ r, m.rest = some r ∧ Tight r
  short : m.part.length ≤ 127
  fits : (joined m.left).length < 256
  covered : ∀ a x fs sub, k.absPath env path = some a → k.answering a = some (x, fs, sub) →
    segments a = segments (k.mounts.cell x).path ++ m.left

theorem Clean.hands (h : Clean env k path m) (hs : '/' ∉ m.part) (hne : m.part ≠ []) :
    Hands env k path m := by
  obtain ⟨r, hr, ht⟩ := h.slash
  have hexact : ∀ beyond, m.handed beyond = some (joined m.left) := by
    intro beyond
    have hrel := (relpath_joined hs hne).mpr ⟨h.short, ht⟩
    have hleft : m.left = m.part :: segments r := by rw [Miss.left, hr, Option.getD_some]
    rw [Miss.handed, hr, Option.getD_some, hrel, ← hleft, Option.filter_some,
      if_pos (by simpa using h.fits)]
  have hgood : ∀ s ∈ m.left, '/' ∉ s ∧ s ≠ [] := by
    intro s hm
    rcases List.mem_cons.mp hm with rfl | hm
    · exact ⟨hs, hne⟩
    · exact mem_segments hm
  refine ⟨hexact, fun a x fs sub s ha hx hh => ?_⟩
  rw [hexact] at hh
  cases hh
  have hcov := h.covered a x fs sub ha hx
  rw [answering_segments hx] at hcov
  rw [segments_joined hgood]
  exact List.append_cancel_left hcov

theorem Hands.clean (h : Hands env k path m) (hs : '/' ∉ m.part) (hne : m.part ≠ []) :
    Clean env k path m := by
  have hgood : ∀ s ∈ m.left, '/' ∉ s ∧ s ≠ [] := by
    intro s hm
    rcases List.mem_cons.mp hm with rfl | hm
    · exact ⟨hs, hne⟩
    · exact mem_segments hm
  have hrel : ∀ beyond, relpath (cut m.part) (m.rest.getD beyond) = joined m.left ∧
      (joined m.left).length < 256 := by
    intro beyond
    have he := h.exact beyond
    obtain ⟨hsome, hlt⟩ := Option.filter_eq_some_iff.mp he
    exact ⟨Option.some.inj hsome, by simpa using hlt⟩
  have hcov : ∀ a x fs sub, k.absPath env path = some a → k.answering a = some (x, fs, sub) →
      segments a = segments (k.mounts.cell x).path ++ m.left := by
    intro a x fs sub ha hx
    have hsame := h.same a x fs sub _ ha hx (h.exact env.beyond)
    rw [answering_segments hx, hsame, segments_joined hgood]
  cases hr : m.rest with
  | none =>
    -- two continuations of the memory behind the path give two texts
    have h1 := (hrel []).1
    have h2 := (hrel ['x']).1
    rw [hr, Option.getD_none, ← h1, hr, Option.getD_none] at h2
    have hlen := congrArg List.length h2
    simp [relpath] at hlen
  | some r =>
    have hleft : m.left = m.part :: segments r := by rw [Miss.left, hr, Option.getD_some]
    have h1 := (hrel []).1
    rw [hr, Option.getD_some, hleft] at h1
    obtain ⟨hshort, ht⟩ := (relpath_joined hs hne).mp h1
    exact ⟨⟨r, hr, ht⟩, hshort, (hrel []).2, hcov⟩

theorem findMounted_handed {F : Finder} {fs : FileSystem}
    (ht : (m.kernel.node m.node).type = .mount)
    (hf : (m.kernel.node m.node).filesystem = some fs) (ho : fs.has .open = true) :
    m.kernel.findMounted env F m.node (cut m.part) m.rest =
      (m.handed env.beyond).bind (Miss.ask env F m fs) := by
  unfold findMounted Miss.handed
  rw [ht, hf]
  dsimp only
  rw [if_pos ho, Option.filter_some]
  by_cases hlen : (relpath (cut m.part) (m.rest.getD env.beyond)).length < 256
  · rw [if_pos hlen, if_pos (decide_eq_true hlen)]
    rw [Option.bind_some, Miss.ask]
    congr 1
    funext ⟨handle, q⟩
    cases handle with
    | none => rfl
    | some h => rfl
  · rw [if_neg hlen, if_neg (by simpa using hlen)]
    rfl

/-- What `find` hands over is the rest of the path exactly when the text is clean. -/
theorem find_hands_iff {fs : FileSystem} (h : k.miss env path = some m)
    (ht : (m.kernel.node m.node).type = .mount)
    (hf : (m.kernel.node m.node).filesystem = some fs) (ho : fs.has .open = true) :
    k.find env path =
      (m.handed env.beyond).bind (Miss.ask env (findTo env (env.fuel - 1)) m fs) ∧
    (Hands env k path m ↔ Clean env k path m) := by
  obtain ⟨hs, hne, hfind⟩ := miss_spec h
  rw [hfind, findMounted_handed ht hf ho]
  exact ⟨rfl, fun hh => hh.clean hs hne, fun hc => hc.hands hs hne⟩

/-- Two components that devfs does not know. -/
theorem find_hands_iff_two_components : ∃ k m, boot.runAll devRun = some k ∧
    k.miss freshEnv "/dev/x/y".toList = some m ∧ m.left = ["x".toList, "y".toList] ∧
    Hands freshEnv k "/dev/x/y".toList m := by
  have hrun : (boot.runAll devRun).any (fun k =>
      (k.miss freshEnv "/dev/x/y".toList).any (fun m => m.part = "x".toList ∧
        m.rest = some "y".toList ∧ (m.kernel.node m.node).type = .mount ∧
        (m.kernel.node m.node).filesystem = some .devfs) ∧
      (k.answering "/dev/x/y".toList).all fun x =>
        (k.mounts.cell x.1).path = "/dev".toList) = true := by decide +kernel
  obtain ⟨k, hk, h⟩ := any_exists hrun
  obtain ⟨hm, hans⟩ := of_decide_eq_true h
  obtain ⟨m, hm, h⟩ := any_exists hm
  obtain ⟨hpart, hrest, ht, hf⟩ := of_decide_eq_true h
  have hleft : m.left = ["x".toList, "y".toList] := by
    rw [Miss.left, hpart, hrest]
    rfl
  refine ⟨k, m, hk, hm, hleft, (find_hands_iff hm ht hf rfl).2.mpr ⟨⟨_, hrest, ?_⟩, ?_, ?_, ?_⟩⟩
  · exact Or.inr (by decide)
  · rw [hpart]
    decide
  · rw [hleft]
    decide
  · intro a x fs sub ha hx
    have ha' : k.absPath freshEnv "/dev/x/y".toList = some "/dev/x/y".toList := rfl
    rw [ha'] at ha
    cases ha
    rw [hx, Option.all_some] at hans
    rw [of_decide_eq_true hans, hleft]
    decide

/-- Behind the last component the path is read past its terminator. -/
theorem read_past_terminator : ¬ ∀ (env : Env) (k : Kernel) (path : List Char) (m : Miss)
    (fs : FileSystem), Reached (fun _ _ _ => True) k → k.miss env path = some m →
    (m.kernel.node m.node).type = .mount → (m.kernel.node m.node).filesystem = some fs →
    fs.has .open = true → m.handed env.beyond = some (joined m.left) := by
  intro hall
  have hrun : (boot.runAll devRun).any (fun k =>
      (k.miss { freshEnv with beyond := ['y'] } "/dev/x".toList).any (fun m =>
        m.part = "x".toList ∧ m.rest = none ∧ (m.kernel.node m.node).type = .mount ∧
        (m.kernel.node m.node).filesystem = some .devfs)) = true := by decide +kernel
  obtain ⟨k, hk, h⟩ := any_exists hrun
  obtain ⟨m, hm, h⟩ := any_exists h
  obtain ⟨hpart, hrest, ht, hf⟩ := of_decide_eq_true h
  have hhanded := hall _ k _ m .devfs (Reached.boot.runAll (fun _ _ _ => trivial) hk) hm ht hf rfl
  rw [Miss.handed, Miss.left, hpart, hrest] at hhanded
  exact absurd hhanded (by decide)

end Kernel

end LosTacOS.Os
