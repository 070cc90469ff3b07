import LosTacOS.Os.Building
import LosTacOS.Os.Readlink

/-! `SYS_GETCWD` and `SYS_CHDIR` back to where one was. The text of the current directory is cut to
the buffer without a word, and a directory below a link has a text that no search comes back from. -/
namespace LosTacOS.Os.Kernel

variable {env : Env} {k k' q : Kernel} {n d p buf size : Nat} {ns : List (List Char)}
  {path text : List Char}

/-- `SYS_GETCWD`: none for -1, else the text that the buffer has in the end. -/
def sysGetcwd (env : Env) (k : Kernel) (buf size : Nat) : Option (Option (List Char)) :=
  if buf = 0 ∨ size = 0 then some none
  else
    match k.currentProc with
    | none => some none
    | some p =>
      match (k.proc p).cwd with
      | none => some none
      | some d => (k.getPath env d).map fun path => some (path.take (size - 1))

structure CwdKept (env : Env) (k : Kernel) (p d buf size : Nat) : Prop where
  back : ∀ text, k.sysGetcwd env buf size = some (some text) →
    ∃ k', k.sysChdir env text = some (0, k') ∧ (k'.proc p).cwd = some d
  small : ∀ path, k.getPath env d = some path → size ≤ path.length →
    k.sysGetcwd env buf size = some none

/-- There is no buffer, or no path that fits `get_path`; or the path and its terminator fit the
buffer, and no link and no name that is cut is on the way to the directory. -/
def CwdFits (env : Env) (k : Kernel) (d buf size : Nat) : Prop :=
  buf = 0 ∨ size = 0 ∨ ∀ path, k.getPath env d = some path → path.length < size ∧ k.Passed d

/-- A search does not take a link or a long name off the way. -/
theorem Passed.before (hn : k.Linked n) (hq : Rooted q) (hk : KeepsEntries k q)
    (h : q.Passed n) : k.Passed n := by
  induction hn with
  | refl => exact .root
  | child hd hc ih =>
    rename_i e c
    have hup : (q.node c).parent = some e := hq.up (hk.linked hd) (hk.children e hd c hc)
    have hl : k.Linked c := Under.child hd hc
    cases h with
    | root =>
      rw [hq.top] at hup
      cases hup
    | child hd' hc' ht hlen =>
      rw [hq.up hd'.linked hc'] at hup
      cases hup
      rw [hk.type c hl] at ht
      rw [hk.name c hl] at hlen
      exact .child (ih hd') hc ht hlen

/-- Searches take the route to a node that they come to. -/
theorem Passed.direct (h : WellFormed k) (hp : k.Passed d) : ∃ ns, k.Direct d ns := by
  induction hp with
  | root => exact ⟨[], .root⟩
  | child hd hc ht hlen ih =>
    rename_i e c
    obtain ⟨ns, hdirect⟩ := ih
    have he := hdirect.route.used h
    obtain ⟨_, hroot⟩ := h.parent_of_child he hc
    have hgood := h.names c (h.children e he c hc) hroot
    exact ⟨_, .child hdirect hc (h.findIn_eq he ⟨hc, rfl⟩) ⟨hgood.1, hgood.2.1, hgood.2.2.1⟩ hlen ht⟩

theorem Route.top (hr : k.Route d ns) (hns : ns = []) : d = k.root := by
  cases hr with
  | root => rfl
  | child hr hc => simp at hns

theorem Route.getPath_split (h : WellFormed k) (hr : k.Route d ns)
    (hp : k.getPath env d = some path) :
    d = k.root ∧ path = ['/'] ∨ ∃ rest, path = '/' :: rest ∧ rest.splitOn '/' = ns := by
  unfold Kernel.getPath at hp
  split at hp
  · rename_i hroot
    cases hp
    exact Or.inl ⟨hroot, rfl⟩
  · rename_i hroot
    obtain ⟨hpath, _⟩ := Option.filter_eq_some_iff.mp hp
    have htext : path = ns.flatMap fun s => '/' :: s := by
      cases hr.pathFrom h env.fuel [] with
      | inl hfrom =>
        rw [hfrom, List.append_nil] at hpath
        exact (Option.some.inj hpath).symm
      | inr hfrom =>
        rw [hfrom.1] at hpath
        cases hpath
    have hsplit := hr.splitOn h
    cases ns with
    | nil => exact absurd (hr.top rfl) hroot
    | cons s ls =>
      rw [← htext] at hsplit
      refine Or.inr ⟨s ++ ls.flatMap fun s => '/' :: s, htext, ?_⟩
      have hslash := List.splitOn_append_cons_self (a := '/') [] (s ++ ls.flatMap fun s => '/' :: s)
      rw [htext] at hsplit
      exact (List.cons.inj (hslash.symm.trans hsplit)).2

theorem Route.getPath_slash (h : WellFormed k) (hr : k.Route d ns)
    (hp : k.getPath env d = some path) : ∃ rest, path = '/' :: rest := by
  rcases hr.getPath_split h hp with ⟨-, rfl⟩ | ⟨rest, rfl, -⟩
  · exact ⟨[], rfl⟩
  · exact ⟨rest, rfl⟩

/-- The path of a directory that searches come to leads to it. -/
theorem Passed.find (h : WellFormed k) (hfuel : env.fuel ≠ 0) (hpass : k.Passed d)
    (hp : k.getPath env d = some path) : k.find env path = some (some d, k) := by
  obtain ⟨ns, hdirect⟩ := hpass.direct h
  rcases hdirect.route.getPath_split h hp with ⟨rfl, rfl⟩ | ⟨rest, rfl, hsplit⟩
  · exact find_slash hfuel
  · exact hdirect.find hfuel hsplit

section chdir

theorem setProc_self (k : Kernel) (p : Nat) (x : Process) : (k.setProc p x).proc p = x := by
  unfold proc setProc
  rw [Arena.set_cell, if_pos rfl]

theorem sysChdir_eq (hf : k.find env path = some (some n, q))
    (hq : q.currentProc = some p) (hdir : (q.node n).directory = true) :
    k.sysChdir env path = some (0, q.setProc p { q.proc p with cwd := some n }) := by
  unfold sysChdir
  rw [hf, Option.bind_eq_bind, Option.bind_some]
  dsimp only
  rw [hq]
  dsimp only
  rw [if_pos hdir]

/-- `SYS_CHDIR` goes where the search ends. -/
theorem sysChdir_cwd (h : k.sysChdir env path = some (0, k')) :
    ∃ n q p, k.find env path = some (some n, q) ∧ q.currentProc = some p ∧
      k' = q.setProc p { q.proc p with cwd := some n } := by
  obtain ⟨⟨node, q⟩, hf, h⟩ := Option.bind_eq_some_iff.mp h
  cases node with
  | none => cases h
  | some n =>
    dsimp only at h
    cases hp : q.currentProc with
    | none =>
      rw [hp] at h
      cases h
    | some p =>
      rw [hp] at h
      dsimp only at h
      split_ifs at h
      · cases h
        exact ⟨n, q, p, hf, hp, rfl⟩
      · cases h

/-- What `SYS_GETCWD` gives is what fits of the path. -/
theorem sysGetcwd_eq (hb : buf ≠ 0) (hs : size ≠ 0) (hp : k.currentProc = some p)
    (hd : (k.proc p).cwd = some d) : k.sysGetcwd env buf size =
      (k.getPath env d).map fun path => some (path.take (size - 1)) := by
  unfold sysGetcwd
  rw [if_neg (not_or.mpr ⟨hb, hs⟩), hp]
  dsimp only
  rw [hd]

/-- One comes back to the current directory exactly when its path fits the buffer and no link is on
the way to it. -/
theorem cwd_kept_iff (h : WellFormed k) (hfuel : env.fuel ≠ 0) (hp : k.currentProc = some p)
    (hd : (k.proc p).cwd = some d) (hu : d ∈ k.nodes.used)
    (hdir : (k.node d).directory = true) :
    CwdKept env k p d buf size ↔ CwdFits env k d buf size := by
  by_cases hbuf : buf = 0 ∨ size = 0
  · have hnone : k.sysGetcwd env buf size = some none := if_pos hbuf
    refine ⟨fun _ => ?_, fun _ => ⟨fun text ht => ?_, fun _ _ _ => hnone⟩⟩
    · exact hbuf.imp id Or.inl
    · rw [hnone] at ht
      cases ht
  obtain ⟨hb, hs⟩ := not_or.mp hbuf
  have hget : k.sysGetcwd env buf size = (k.getPath env d).map fun path =>
      some (path.take (size - 1)) := sysGetcwd_eq hb hs hp hd
  constructor
  · intro hkept
    refine Or.inr (Or.inr fun path hpath => ?_)
    rw [hpath] at hget
    have hfits : path.length < size := by
      by_contra hlong
      have hnone := hkept.small path hpath (Nat.le_of_not_lt hlong)
      rw [hget] at hnone
      cases hnone
    refine ⟨hfits, ?_⟩
    have htext : path.take (size - 1) = path := List.take_of_length_le (by omega)
    rw [Option.map_some, htext] at hget
    obtain ⟨k', hch, hcwd⟩ := hkept.back path hget
    obtain ⟨n, q, p', hf, hp', rfl⟩ := sysChdir_cwd hch
    have hgrown := find_grown hf
    rw [currentProc_of_procSide hgrown.procs, hp] at hp'
    cases hp'
    rw [setProc_self] at hcwd
    obtain rfl : n = d := Option.some.inj hcwd
    obtain ⟨ns, hroute⟩ := (h.linked hu).route
    obtain ⟨rest, rfl⟩ := hroute.getPath_slash h hpath
    have hafter := passed_stands.follows env.fuel h.rooted trivial hf
    exact (passed_stands.findTo env.fuel h.rooted hf).before (h.linked hu) hafter.1 hafter.2.1
  · rintro (hb' | hs' | hfits)
    · exact absurd hb' hb
    · exact absurd hs' hs
    · constructor
      · intro text htext
        rw [hget] at htext
        obtain ⟨path, hpath, heq⟩ := Option.map_eq_some_iff.mp htext
        obtain ⟨hlen, hpass⟩ := hfits path hpath
        rw [List.take_of_length_le (by omega)] at heq
        cases heq
        refine ⟨_, sysChdir_eq (hpass.find h hfuel hpath) hp hdir, ?_⟩
        rw [setProc_self]
      · intro path hpath hlong
        exact absurd hlong (Nat.not_le_of_lt (hfits path hpath).1)

end chdir

section trees

theorem WellFormed.of_nodes (h : WellFormed k) (hn : k'.nodes = k.nodes) (hr : k'.root = k.root) :
    WellFormed k' := by
  cases k
  cases k'
  dsimp only at hn hr
  subst hn hr
  exact ⟨h.root, h.top, h.once, h.children, h.climbs, h.dirs, h.siblings, h.names⟩

def libCwd : Kernel := libTree.setProc 0 { libTree.proc 0 with cwd := some 2 }

theorem cwd_kept_iff_lib : CwdKept freshEnv libCwd 0 2 4096 16 := by
  have hwell : WellFormed libCwd := libTree_wellFormed.of_nodes rfl rfl
  refine (cwd_kept_iff hwell (by decide) rfl rfl (by decide) rfl).mpr (Or.inr (Or.inr ?_))
  intro path hpath
  have hlib : libCwd.getPath freshEnv 2 = some "/usr/lib".toList := by decide
  rw [hlib] at hpath
  cases hpath
  have husr : libCwd.Passed 1 := .child .root (by decide) (by decide) (by decide)
  exact ⟨by decide, .child husr (by decide) (by decide) (by decide)⟩

/-- In a buffer of five bytes `/usr/lib` is `/usr`. -/
theorem cwd_cut_short : ¬ ∀ (env : Env) (k : Kernel) (p d buf size : Nat),
    Reached (fun _ _ _ => True) k → WellFormed k → k.currentProc = some p →
    (k.proc p).cwd = some d → d ∈ k.nodes.used → (k.node d).directory = true →
    (k.node d).type ≠ .symlink → CwdKept env k p d buf size := by
  intro hall
  have hmake : boot.createDirOk "/usr/lib".toList := by decide +kernel
  have hrun : (boot.runAll [(freshEnv, .createDirPath "/usr/lib".toList)]).any (fun k1 =>
      (k1.sysChdir freshEnv "/usr/lib".toList).any (fun x => x.1 = 0 ∧
        x.2.nodes.used = k1.nodes.used ∧ x.2.root = k1.root ∧ x.2.currentProc = some 0 ∧
        (x.2.proc 0).cwd = some 2 ∧ 2 ∈ x.2.nodes.used ∧ (x.2.node 2).directory = true ∧
        (x.2.node 2).type ≠ .symlink ∧
        x.2.sysGetcwd freshEnv 4096 5 = some (some "/usr".toList) ∧
        (x.2.sysChdir freshEnv "/usr".toList).any (fun y => (y.2.proc 0).cwd = some 1))) = true := by
    decide +kernel
  obtain ⟨k1, hk1, hch⟩ := any_exists hrun
  obtain ⟨⟨r, k2⟩, hk2, h⟩ := any_exists hch
  obtain ⟨rfl, hused, hroot, hp, hd, hu, hdir, hlink, hget, hback⟩ := of_decide_eq_true h
  -- making the directory keeps the tree well formed, and going there does not change it
  obtain ⟨k1', hk1', hr1, hrest⟩ :=
    Reached.first (Reached.boot : Reached keepsTree boot) hk1 hmake
  cases hrest
  obtain ⟨n, q, p, hf, -, rfl⟩ := sysChdir_cwd hk2
  have hwell : WellFormed (q.setProc p { q.proc p with cwd := some n }) :=
    hr1.planted.wellFormed.of_nodes ((find_grown hf).same hused) hroot
  have hreach : Reached (fun _ _ _ => True) k1 :=
    Reached.boot.runAll (fun _ _ _ => trivial) hk1
  have hstep : k1.step freshEnv (.chdir "/usr/lib".toList) = _ := congrArg (answer id) hk2
  obtain ⟨⟨r, k3⟩, hk3, hcwd⟩ := any_exists hback
  have hkept := hall freshEnv _ 0 2 4096 5 (hreach.step trivial hstep) hwell hp hd hu hdir hlink
  obtain ⟨k', hk', hsame⟩ := hkept.back _ hget
  rw [hk3] at hk'
  cases hk'
  have hother : (k3.proc 0).cwd = some 1 := of_decide_eq_true hcwd
  rw [hother] at hsame
  cases hsame

end trees

end LosTacOS.Os.Kernel
