import LosTacOS.Os.Tables

/-! One rule for every call. A property of descriptors, nodes, mounts and file system calls is kept
by all steps of the kernel when the few operations below keep it. -/
namespace LosTacOS.Os.Kernel

variable {env : Env} {k k' k1 : Kernel} {l : List Nat} {p : Nat} {i : Fin maxFds}
  {I : Kernel → Prop} {R : Kernel → Kernel → Prop} {V : Kernel → Nat → Prop}
  {G : Kernel → Option FileSystem → Nat → Prop} {C : FdEntry → Prop}

def mountedEntry (m h : Nat) : FdEntry :=
  { FdEntry.zero with type := .file, fsHandle := some h, mount := some m }

def Alive (I : Kernel → Prop) (k : Kernel) : Prop :=
  I k ∧ ∀ p, k.currentProc = some p → p ∈ k.procs.used

theorem Alive.of_listed (h : I k) (hl : Listed k l) : Alive I k :=
  ⟨h, fun _ hp => hl.currentProc_used hp⟩

/-- A change that has nothing to do with who is running. -/
theorem Alive.after {J : Kernel → Prop} (h : Alive I k) (hs : k'.procSide = k.procSide)
    (h' : J k') : Alive J k' := by
  refine ⟨h', fun p hp => ?_⟩
  have hprocs : k'.procs = k.procs := congrArg ProcSide.procs hs
  rw [currentProc_of_procSide hs] at hp
  rw [hprocs]
  exact h.2 p hp

/-- No call on the tree has anything to do with who is running. -/
theorem TreeRule.alive (T : TreeRule env I R V G)
    (hR : ∀ {k k'}, R k k' → k'.procSide = k.procSide) : TreeRule env (Alive I) R V G := by
  have hafter : ∀ {k k'}, Alive I k → I k' ∧ R k k' → Alive I k' ∧ R k k' :=
    fun h h' => ⟨h.after (hR h'.2) h'.1, h'.2⟩
  exact
  { refl := T.refl
    trans := T.trans
    keep := T.keep
    root := fun h => T.root h.1
    cwd := fun h => T.cwd h.1
    parent := fun h => T.parent h.1
    child := fun h => T.child h.1
    alloc := fun h => hafter h (T.alloc h.1)
    device := fun d h => hafter h (T.device d h.1)
    dev := fun dev h hv hp hc => hafter h (T.dev dev h.1 hv hp hc)
    ask := fun found h hv ht hf ho h' hr => hafter h' (T.ask found h.1 hv ht hf ho h'.1 hr)
    create := by
      intro k name d dir n k' h hv hc
      obtain ⟨h1, h2, h3⟩ := T.create h.1 hv hc
      exact ⟨h.after (hR h2) h1, h2, h3⟩
    link := fun t h hv => hafter h (T.link t h.1 hv)
    file := fun f h hv => hafter h (T.file f h.1 hv)
    data := fun a b c d e h => hafter h (T.data a b c d e h.1)
    carry := T.carry
    null := T.null
    volume := by
      intro k fs v h
      obtain ⟨h1, h2, h3⟩ := T.volume fs v h.1
      exact ⟨h.after (hR h2) h1, h2, h3⟩
    retype := fun h hv hg => hafter h (T.retype h.1 hv hg)
    table := fun h hm hg => hafter h (T.table h.1 hm hg) }

/-- `C` holds of the descriptors that may be copied. -/
structure CallRule (env : Env) (I : Kernel → Prop) (R : Kernel → Kernel → Prop)
    (V : Kernel → Nat → Prop) (G : Kernel → Option FileSystem → Nat → Prop) (C : FdEntry → Prop) :
    Prop where
  tree : TreeRule env (Alive I) R V G
  procs : ∀ {k k'}, R k k' → k'.procSide = k.procSide
  tasks : ∀ {k : Kernel} (tasks head tail current allocs), I k →
    I { k with tasks, head, tail, current, allocs }
  thread : ∀ {k : Kernel} {p : Nat} (m : Option Nat), I k →
    I (k.setProc p { k.proc p with mainThread := m })
  newProcess : ∀ {k : Kernel} {c : Nat}, I k → c ∉ k.procs.used → I (k.newProcess c)
  discard : ∀ {k : Kernel} {p : Nat}, I k → p ∈ k.procs.used → I (k.freeProcess p)
  inherit : ∀ {k : Kernel} {parent c : Nat} {q : Kernel}, I q → TableRule.Fresh k parent c q →
    (∀ i, C (q.entry parent i)) → I (q.inherit parent c)
  home : ∀ {k : Kernel} {p : Nat}, I k → I (k.setProc p { k.proc p with cwd := some k.root })
  enterDir : ∀ {k : Kernel} {p n : Nat}, I k → V k n → I (k.setProc p { k.proc p with cwd := some n })
  pipes : ∀ {k : Kernel} (pipes pipeUsed), I k → I { k with pipes, pipeUsed }
  altered : ∀ {k : Kernel} {p : Nat} {i : Fin maxFds} (offset flags nonblock), I k →
    p ∈ k.procs.used → I (k.setEntry p i { k.entry p i with offset, flags, nonblock })
  plain : ∀ {k : Kernel} {p : Nat} {i : Fin maxFds} {e : FdEntry}, I k → p ∈ k.procs.used →
    e.node = none → e.mount = none → e.fsHandle = none → I (k.setEntry p i e)
  copied : ∀ {k : Kernel} {p : Nat} {i j : Fin maxFds}, I k → p ∈ k.procs.used →
    C (k.entry p i) → I (k.setEntry p j (k.entry p i))
  held : ∀ {k : Kernel} {p n : Nat} {i : Fin maxFds}, I k → p ∈ k.procs.used →
    (k.entry p i).node = some n → V k n
  node : ∀ {k : Kernel} {p n : Nat} {i : Fin maxFds}, I k → p ∈ k.procs.used → V k n →
    (k.entry p i).type = .none → I (k.setEntry p i { FdEntry.zero with node := some n, type := .file })
  mounted : ∀ {k q : Kernel} {m : Nat} {fs : FileSystem} (found), I k → m ∈ k.mountTable →
    (k.mounts.cell m).fs = some fs → fs.has .open = true → I q → R k q →
      I (q.opened fs (k.mounts.cell m).data found) ∧
      ∀ p i, p ∈ q.procs.used → found = true → (q.entry p i).type = .none →
        I ((q.opened fs (k.mounts.cell m).data found).setEntry p i (mountedEntry m q.handles))
  used : ∀ {k : Kernel} {p : Nat} {i : Fin maxFds} {fs : FileSystem} {h : Nat} {c : Callback}, I k →
    p ∈ k.procs.used → k.fsOf (k.entry p i) c = some (fs, h) →
      I { k with fsLog := .used fs c h :: k.fsLog }
  closed : ∀ {k : Kernel} {p : Nat} {i : Fin maxFds} {fs : FileSystem} {h : Nat}, I k →
    p ∈ k.procs.used → k.fsOf (k.entry p i) .close = some (fs, h) →
      I ((k.fsClose fs h).setEntry p i FdEntry.zero)

/-- The copies of descriptors that a call makes are such that `C` allows them. -/
def Copies (C : FdEntry → Prop) (k : Kernel) : Event → Prop
  | .dup fd => ∀ p i j, k.openFd fd = some (p, i) → k.firstFree p 0 = some j → C (k.entry p i)
  | .dup2 old new => ∀ p i j, k.openFd old = some (p, i) → fdIndex new = some j → j ≠ i →
      C (k.entry p i)
  | .fcntl fd cmd arg => cmd = 0 ∨ cmd = 1030 → ∀ p i, k.openFd fd = some (p, i) →
      k.HasFree p (cInt arg) → C (k.entry p i)
  | .fork => ∀ p, k.currentProc = some p → ∀ i, C (k.entry p i)
  | _ => True

theorem copies_true (k : Kernel) (ev : Event) : Copies (fun _ => True) k ev := by
  cases ev with
  | dup fd => exact fun _ _ _ _ _ => trivial
  | dup2 old new => exact fun _ _ _ _ _ _ => trivial
  | fcntl fd cmd arg => exact fun _ _ _ _ _ => trivial
  | fork => exact fun _ _ _ => trivial
  | _ => trivial

/-- What is behind a descriptor that belongs to a mount. -/
theorem fsOf_some {e : FdEntry} {c : Callback} {fs : FileSystem} {h : Nat}
    (hf : k.fsOf e c = some (fs, h)) : ∃ m, e.mount = some m ∧ e.fsHandle = some h ∧
      (k.mounts.cell m).fs = some fs := by
  simp only [fsOf, Option.bind_eq_bind, Option.bind_eq_some_iff] at hf
  obtain ⟨m, hm, h', hh, fs', hfs, hf⟩ := hf
  split at hf
  · cases hf
    exact ⟨m, hm, hh, hfs⟩
  · cases hf

theorem setProc_entry {x : Process} (hx : x.fds = (k.proc p).fds) (q : Nat) (j : Fin maxFds) :
    (k.setProc p x).entry q j = k.entry q j := by
  unfold entry proc Kernel.setProc
  dsimp only
  rw [Arena.set_cell]
  split
  · rename_i hq
    rw [hx, hq]
    rfl
  · rfl

theorem newProcess_entry (k : Kernel) (c q : Nat) (j : Fin maxFds) :
    (k.newProcess c).entry q j = if q = c then FdEntry.zero else k.entry q j := by
  unfold entry proc Kernel.newProcess
  dsimp only
  rw [Arena.alloc_cell]
  split
  · rfl
  · rfl

namespace CallRule

variable (A : CallRule env I R V G C)
include A

theorem zeroed (h : I k) (hp : p ∈ k.procs.used) : I (k.setEntry p i FdEntry.zero) :=
  A.plain h hp rfl rfl rfl

theorem tables : TableRule I (fun _ => True) where
  free := trivial
  tasks := A.tasks
  thread := A.thread
  home h := A.home h
  create := A.newProcess
  discard h hp _ := A.discard h hp
  close := by
    intro k p i h hp
    unfold closeEntry
    dsimp only
    split
    · exact h
    · split
      · obtain ⟨pipes, pipeUsed, hr⟩ := release_rest k (k.entry p i) (· ≤ 0)
        rw [hr]
        exact A.pipes pipes pipeUsed (A.zeroed h hp)
      · cases hfs : k.fsOf (k.entry p i) .close with
        | none => exact A.zeroed h hp
        | some x => exact A.closed h hp hfs

theorem retain (h : I k) (e : FdEntry) : I (k.retain e) := by
  obtain ⟨pipes, hr⟩ := retain_rest k e
  rw [hr]
  exact A.pipes pipes k.pipeUsed h

section descriptors

theorem sysPipe (h : I k) (hl : Listed k l) : I k.sysPipe.2 := by
  unfold Kernel.sysPipe
  split
  · exact h
  · rename_i p hp
    have hu := hl.currentProc_used hp
    split
    · exact h
    · rename_i j hj
      dsimp only
      split
      · exact A.pipes _ k.pipeUsed h
      · refine A.plain (A.plain (A.pipes _ _ h) hu rfl rfl rfl) ?_ rfl rfl rfl
        exact hu

theorem sysClose (h : I k) (hl : Listed k l) (fd : Int) : I (k.sysClose fd).2 := by
  unfold Kernel.sysClose
  split
  · exact h
  · rename_i p i hfd
    have hu := hl.currentProc_used (openFd_current hfd).1
    dsimp only
    cases hfs : k.fsOf (k.entry p i) .close with
    | none =>
      dsimp only
      split
      · obtain ⟨pipes, pipeUsed, hr⟩ := release_rest k (k.entry p i) (· = 0)
        rw [hr]
        exact A.pipes pipes pipeUsed (A.zeroed h hu)
      · exact A.zeroed h hu
    | some x =>
      dsimp only
      split
      · obtain ⟨pipes, pipeUsed, hr⟩ := release_rest (k.fsClose x.1 x.2) (k.entry p i) (· = 0)
        rw [hr]
        exact A.pipes pipes pipeUsed (A.closed h hu hfs)
      · exact A.closed h hu hfs

theorem dupFrom {min : Int} (h : I k) (hp : p ∈ k.procs.used)
    (hc : k.HasFree p min → C (k.entry p i)) : I (k.dupFrom p i min).2 := by
  unfold Kernel.dupFrom
  split
  · rename_i hmin
    split
    · rename_i j hj
      exact A.copied h hp (hc ⟨hmin.1, hmin.2, by rw [hj]; rfl⟩)
    · exact h
  · exact h

theorem sysFcntl {fd cmd : Int} {arg : UInt64} (h : I k) (hl : Listed k l)
    (hc : Copies C k (.fcntl fd cmd arg)) : I (k.sysFcntl fd cmd arg).2 := by
  unfold Kernel.sysFcntl
  split
  · exact h
  · rename_i p i hfd
    have hu := hl.currentProc_used (openFd_current hfd).1
    dsimp only
    split
    · rename_i h0
      exact A.dupFrom h hu (hc (Or.inl h0) p i hfd)
    · split
      · exact h
      · split
        · exact A.altered _ _ _ h hu
        · split
          · exact h
          · split
            · exact A.altered _ _ _ h hu
            · split
              · rename_i h1
                exact A.dupFrom h hu (hc (Or.inr h1) p i hfd)
              · exact h

theorem sysDup {fd : Int} (h : I k) (hl : Listed k l) (hc : Copies C k (.dup fd)) :
    I (k.sysDup fd).2 := by
  unfold Kernel.sysDup
  split
  · exact h
  · rename_i p i hfd
    have hu := hl.currentProc_used (openFd_current hfd).1
    split
    · exact h
    · rename_i j hj
      exact A.retain (A.copied h hu (hc p i j hfd hj)) _

theorem sysDup2 {old new : Int} (h : I k) (hl : Listed k l) (hc : Copies C k (.dup2 old new)) :
    I (k.sysDup2 old new).2 := by
  unfold Kernel.sysDup2
  split
  · rename_i p i j hfd hj
    have hu := hl.currentProc_used (openFd_current hfd).1
    by_cases hij : j = i
    · -- a descriptor copied to its own place
      have h1 := A.altered (i := i) (k.entry p i).offset (k.entry p i).flags
        (k.entry p i).nonblock h hu
      rw [hij]
      exact A.retain h1 _
    · exact A.retain (A.copied h hu (hc p i j hfd hj hij)) _
  · exact h

theorem sysLseek (h : I k) (hl : Listed k l) (fd offset : Int) (whence : Nat) :
    I (k.sysLseek env fd offset whence).2 := by
  unfold Kernel.sysLseek
  split
  · exact h
  · rename_i p i hfd
    have hu := hl.currentProc_used (openFd_current hfd).1
    dsimp only
    split
    · exact h
    · split
      · rename_i fs hd hfs
        split at hfs
        · have h1 := A.used h hu hfs
          split
          · exact A.altered _ _ _ h1 hu
          · exact h1
        · cases hfs
      · split
        · exact h
        · split
          · exact h
          · exact A.altered _ _ _ h hu

theorem sysIoctl (h : I k) (hl : Listed k l) (fd : Int) : I (k.sysIoctl env fd).2 := by
  unfold Kernel.sysIoctl
  split
  · exact h
  · split
    · exact h
    · rename_i p i hfd
      have hu : p ∈ k.procs.used := by
        unfold getFdEntry at hfd
        simp only [Option.bind_eq_bind, Option.bind_eq_some_iff, Option.some.injEq,
          Prod.mk.injEq] at hfd
        obtain ⟨_, _, q, hq, rfl, _⟩ := hfd
        exact hl.currentProc_used hq
      dsimp only
      split
      · rename_i fs hd hfs
        split at hfs
        · exact A.used h hu hfs
        · cases hfs
      · exact h

/-- The cast of `sys_readdir` is the caller's business. -/
theorem sysReaddir {fd : Int} (h : I k) (hl : Listed k l)
    (hcast : ∀ {p i m fs hd}, k.openFd fd = some (p, i) → (k.entry p i).node = none →
      (k.entry p i).mount = some m → (k.mounts.cell m).fs = some fs →
        (k.entry p i).fsHandle = some hd → I { k with fsLog := .asProcFile hd :: k.fsLog }) :
    I (k.sysReaddir env fd).2 := by
  unfold Kernel.sysReaddir
  split
  · exact h
  · rename_i p i hfd
    have hu := hl.currentProc_used (openFd_current hfd).1
    dsimp only
    split
    · rename_i hd hn hh
      simp only [Option.bind_eq_bind, Option.bind_eq_some_iff] at hh
      obtain ⟨m, hm, fs, hfs, hh⟩ := hh
      have h1 := hcast hfd hn hm hfs hh
      split
      · exact A.altered _ _ _ h1 hu
      · exact h1
    · exact h
    · split
      · split
        · exact A.altered _ _ _ h hu
        · exact h
      · exact h

end descriptors

section files

theorem used_of_rule {q : Kernel} (hr : R k q) (hp : p ∈ k.procs.used) : p ∈ q.procs.used := by
  have hs : q.procs = k.procs := congrArg ProcSide.procs (A.procs hr)
  rw [hs]
  exact hp

theorem growFile {f size : Nat} (h : Alive I k) (hg : k.growFile env f size = some k') :
    Alive I k' ∧ R k k' := by
  unfold Kernel.growFile at hg
  dsimp only at hg
  split at hg
  · split at hg
    · cases hg
    · rename_i b k1 hb
      obtain ⟨h1, h2⟩ := A.tree.allocBlock h hb
      cases hg
      cases (k.files.cell f).privateData with
      | none =>
        obtain ⟨h3, h4⟩ := A.tree.data (k1.files.set f _) k1.blocks k1.blockLen k1.freed k1.allocs h1
        exact ⟨h3, A.tree.trans h2 h4⟩
      | some q =>
        obtain ⟨h3, h4⟩ := A.tree.data (k1.files.set f _) _ k1.blockLen _ k1.allocs h1
        exact ⟨h3, A.tree.trans h2 h4⟩
  · cases hg
    exact ⟨h, A.tree.refl _⟩

theorem writeNode {n : Nat} {bytes : List UInt8} {r : Int} (h : Alive I k) (hp : p ∈ k.procs.used)
    (hv : V k n) (hw : k.writeNode env p i n bytes = some (r, k')) : I k' := by
  unfold Kernel.writeNode at hw
  dsimp only at hw
  split at hw
  · rename_i k1 hk
    cases hw
    exact (A.tree.ensureFileStorage h hv hk).1.1
  · rename_i f k1 hk
    obtain ⟨h1, h2⟩ := A.tree.ensureFileStorage h hv hk
    split at hw
    · cases hw
      exact A.tasks _ _ _ _ _ h1.1
    · rename_i k2 hg
      obtain ⟨h3, h4⟩ := A.growFile h1 hg
      obtain ⟨-, hw⟩ := Option.ite_none_right_eq_some.mp hw
      split at hw
      · cases hw
      · rename_i q hq
        cases hw
        obtain ⟨h5, h6⟩ := A.tree.data k2.files
          ((k2.copyTo ⟨q.block, q.off + (k.entry p i).offset⟩ bytes).copyTo
            ⟨q.block, q.off + (k2.files.cell f).size⟩ [0]).blocks k2.blockLen k2.freed k2.allocs h3
        have hr := A.tree.trans h2 (A.tree.trans h4 h6)
        have he := entry_of_procSide (A.procs hr) p i
        have h7 := A.altered (i := i) ((k.entry p i).offset + bytes.length) (k.entry p i).flags
          (k.entry p i).nonblock h5.1 (A.used_of_rule hr hp)
        rw [he] at h7
        exact h7

theorem sysWrite {fd : Int} {bytes : List UInt8} {r : Int} (h : I k) (hl : Listed k l)
    (hw : k.sysWrite env fd bytes = some (r, k')) : I k' := by
  unfold Kernel.sysWrite at hw
  split at hw
  · cases hw
    exact h
  · split at hw
    · split at hw
      · cases hw
        exact h
      · cases hw
        exact h
    · rename_i p i hfd
      have hu := hl.currentProc_used (openFd_current hfd).1
      dsimp only at hw
      split at hw
      · cases hw
        exact h
      · split at hw
        · split at hw
          · split at hw
            · cases hw
            · cases hw
              exact A.pipes _ k.pipeUsed h
          · cases hw
            exact h
        · split at hw
          · split at hw
            · rename_i fs hd hfs
              cases hw
              exact A.used h hu hfs
            · cases hw
              exact h
          · rename_i n hn
            have hv := A.held h hu hn
            split at hw
            · split at hw
              · cases hw
                exact A.altered _ _ _ h hu
              · split at hw
                · cases hw
                  exact h
                · exact A.writeNode (.of_listed h hl) hu hv hw
            · split at hw
              · cases hw
                exact h
              · exact A.writeNode (.of_listed h hl) hu hv hw

theorem sysRead {fd : Int} {len : Nat} {r : Int} {bytes : List UInt8} (h : I k) (hl : Listed k l)
    (hr : k.sysRead env fd len = some (r, bytes, k')) : I k' := by
  unfold Kernel.sysRead at hr
  split at hr
  · cases hr
    exact h
  · split at hr
    · cases hr
      exact h
    · rename_i p i hfd
      have hu := hl.currentProc_used (openFd_current hfd).1
      dsimp only at hr
      split at hr
      · rename_i fs hd hfs
        cases hr
        split at hfs
        · exact A.used h hu hfs
        · cases hfs
      · split at hr
        · split at hr
          · split at hr
            · cases hr
            · split at hr
              · cases hr
                exact A.pipes _ k.pipeUsed h
              · split at hr
                · cases hr
                  exact h
                · cases hr
          · cases hr
            exact h
        · split at hr
          · cases hr
            exact h
          · split at hr
            · cases hr
              exact A.altered _ _ _ h hu
            · split at hr
              · cases hr
                exact h
              · split at hr
                · cases hr
                  exact h
                · split at hr
                  · cases hr
                    exact h
                  · split at hr
                    · cases hr
                      exact h
                    · cases hr
                      exact A.altered _ _ _ h hu

theorem openFound {path : List Char} {flags : Nat} {node : Option Nat} {r : Int} (h : I k)
    (hl : Listed k l) (hv : ∀ n, node = some n → V k n)
    (ho : k.openFound env path flags node = some (r, k')) : I k' := by
  unfold Kernel.openFound at ho
  split at ho
  · cases ho
    exact h
  · rename_i n
    split at ho
    · rename_i k1 hk
      cases ho
      rw [allocFd_none hk]
      exact h
    · rename_i p i k1 hk
      obtain ⟨hp, hfree, rfl⟩ := allocFd_some hk
      have h1 := A.node h (hl.currentProc_used hp) (hv n rfl) hfree
      split at ho
      · obtain ⟨⟨b, k2⟩, h2, h3⟩ := Option.bind_eq_some_iff.mp ho
        cases h3
        have hl1 : Listed (k.setEntry p i { FdEntry.zero with node := some n, type := .file }) l :=
          hl.keep rfl
        exact (A.tree.writeContent (.of_listed h1 hl1) h2).1.1
      · cases ho
        exact h1

theorem listed_of_rule {q : Kernel} (hl : Listed k l) (hr : R k q) : Listed q l :=
  hl.keep (taskSide_of_procSide (A.procs hr))

theorem openNode {path : List Char} {flags : Nat} {r : Int} (h : I k) (hl : Listed k l)
    (ho : k.openNode env path flags = some (r, k')) : I k' := by
  obtain ⟨⟨node, k1⟩, h1, ho⟩ := Option.bind_eq_some_iff.mp ho
  obtain ⟨h2, h3, h4⟩ := A.tree.find (.of_listed h hl) h1
  have hl1 := A.listed_of_rule hl h3
  dsimp only at ho
  split at ho
  · obtain ⟨⟨node2, k2⟩, h5, ho⟩ := Option.bind_eq_some_iff.mp ho
    obtain ⟨h6, h7, h8⟩ := A.tree.createFilePath h2 h5
    exact A.openFound h6.1 (A.listed_of_rule hl1 h7) h8 ho
  · exact A.openFound h2.1 hl1 h4 ho

theorem openMounted {m : Nat} {fs : FileSystem} {sub : List Char} {r : Int} (h : I k)
    (hl : Listed k l) (hm : m ∈ k.mountTable) (hfs : (k.mounts.cell m).fs = some fs)
    (hopen : fs.has .open = true) (ho : k.openMounted env m fs sub = some (r, k')) : I k' := by
  obtain ⟨⟨handle, k2⟩, h1, ho⟩ := Option.bind_eq_some_iff.mp ho
  obtain ⟨q, found, hq, hr, hh, rfl⟩ := A.tree.fsOpen (.of_listed h hl) h1
  obtain ⟨h2, h3⟩ := A.mounted found h hm hfs hopen hq.1 hr
  cases found with
  | false =>
    rw [if_neg Bool.false_ne_true] at hh
    rw [hh] at ho
    cases ho
    exact h2
  | true =>
    rw [if_pos rfl] at hh
    rw [hh] at ho
    dsimp only at ho
    split at ho
    · rename_i k3 hk3
      cases ho
      rw [allocFd_none hk3]
      exact h2
    · rename_i p i k3 hk3
      cases ho
      obtain ⟨hp, hfree, rfl⟩ := allocFd_some hk3
      have hu : p ∈ q.procs.used := (A.listed_of_rule hl hr).currentProc_used hp
      have h4 := h3 p i hu rfl hfree
      rw [setEntry_setEntry, setEntry_entry, if_pos ⟨rfl, rfl⟩]
      exact h4

theorem sysOpen {path : List Char} {flags : Nat} {r : Int} (h : I k) (hl : Listed k l)
    (ho : k.sysOpen env path flags = some (r, k')) : I k' := by
  obtain ⟨path', _, ho⟩ := Option.bind_eq_some_iff.mp ho
  split at ho
  · exact A.openNode h hl ho
  · rename_i m hm
    dsimp only at ho
    split at ho
    · exact A.openNode h hl ho
    · rename_i fs hfs
      split at ho
      · rename_i hopen
        exact A.openMounted h hl (findMount_some hm).1 hfs hopen.1 ho
      · exact A.openNode h hl ho

theorem sysChdir {path : List Char} {r : Int} (h : I k) (hl : Listed k l)
    (hc : k.sysChdir env path = some (r, k')) : I k' := by
  obtain ⟨⟨node, k1⟩, h1, hc⟩ := Option.bind_eq_some_iff.mp hc
  obtain ⟨⟨h2, _⟩, _, h4⟩ := A.tree.find (.of_listed h hl) h1
  dsimp only at hc
  split at hc
  · rename_i n p hp
    split at hc
    · cases hc
      exact A.enterDir h2 (h4 n rfl)
    · cases hc
      exact h2
  · cases hc
    exact h2
  · cases hc

end files

theorem onTable {ev : Event} {r : Reply} (h : I k) (hl : Listed k l) (ht : ev.onTable = true)
    (hc : Copies C k ev) (hs : k.step env ev = some (r, k')) : I k' := by
  cases ev with
  | pipe =>
    simp only [Kernel.step] at hs
    have hk : k' = k.sysPipe.2 := answer_pure hs
    rw [hk]
    exact A.sysPipe h hl
  | close fd =>
    have hk : k' = (k.sysClose fd).2 := answer_pure hs
    rw [hk]
    exact A.sysClose h hl fd
  | dup fd =>
    have hk : k' = (k.sysDup fd).2 := answer_pure hs
    rw [hk]
    exact A.sysDup h hl hc
  | dup2 old new =>
    have hk : k' = (k.sysDup2 old new).2 := answer_pure hs
    rw [hk]
    exact A.sysDup2 h hl hc
  | fcntl fd cmd arg =>
    have hk : k' = (k.sysFcntl fd cmd arg).2 := answer_pure hs
    rw [hk]
    exact A.sysFcntl h hl hc
  | _ => cases ht

theorem lifecycle {ev : Event} {r : Reply} (h : I k) (hl : Listed k l) (hq : ev.lifecycle = true)
    (hc : Copies C k ev) (hs : k.step env ev = some (r, k')) : I k' := by
  refine A.tables.lifecycle hl h hq (discards_true env k ev)
    (fun hl hi hf => (A.tree.find (.of_listed hi hl) hf).1.1) ?_ hs
  intro hf p q c hp hi hnew
  rw [hf] at hc
  refine A.inherit hi hnew fun i => ?_
  have he : q.entry p i = k.entry p i := by
    unfold entry
    rw [hnew.same]
    unfold proc setProc
    rw [Arena.set_cell_self]
  rw [he]
  exact hc p hp i

theorem onTree {ev : Event} {r : Reply} (h : I k) (hl : Listed k l) (hq : ev.onTree = true)
    (hmount : ∀ target fstype data, ev = .sysMount target fstype data →
      G k (fstype.bind fsByName) data)
    (humount : ∀ {path r k'},
      (ev = .umount path ∨ ∃ target, ev = .sysUmount target ∧ k.absPath env target = some path) →
        k.umount env path = some (r, k') → I k')
    (hremove : ∀ {path r k'}, ev = .remove path → k.remove env path = some (r, k') → I k')
    (hs : k.step env ev = some (r, k')) : I k' := by
  have ha : Alive I k := .of_listed h hl
  refine (A.tree.onTree ha hq hmount ?_ ?_ hs).1
  · intro path r q hu hq
    exact ha.after (umount_procSide k path r q hq) (humount hu hq)
  · intro path r q hr hq
    exact ha.after (remove_procSide k path r q hq) (hremove hr hq)

/-- Every step, but for copies, what is mounted, `umount`, `remove` and the cast of `readdir`. -/
theorem step {ev : Event} {r : Reply} (h : I k) (hl : Listed k l) (hc : Copies C k ev)
    (hmount : ∀ target fstype data, ev = .sysMount target fstype data →
      G k (fstype.bind fsByName) data)
    (humount : ∀ {path r k'},
      (ev = .umount path ∨ ∃ target, ev = .sysUmount target ∧ k.absPath env target = some path) →
        k.umount env path = some (r, k') → I k')
    (hremove : ∀ {path r k'}, ev = .remove path → k.remove env path = some (r, k') → I k')
    (hcast : ∀ {fd p i m fs hd}, ev = .readdir fd → k.openFd fd = some (p, i) →
      (k.entry p i).node = none → (k.entry p i).mount = some m → (k.mounts.cell m).fs = some fs →
        (k.entry p i).fsHandle = some hd → I { k with fsLog := .asProcFile hd :: k.fsLog })
    (hs : k.step env ev = some (r, k')) : I k' := by
  cases hq : ev.lifecycle with
  | true => exact A.lifecycle h hl hq hc hs
  | false =>
    cases ht : ev.onTable with
    | true => exact A.onTable h hl ht hc hs
    | false =>
      cases htree : ev.onTree with
      | true => exact (A.onTree h hl htree hmount humount hremove hs)
      | false =>
        cases ev with
        | «open» path flags =>
          obtain ⟨a, hs⟩ := answer_some hs
          exact A.sysOpen h hl hs
        | write fd data =>
          obtain ⟨a, hs⟩ := answer_some hs
          exact A.sysWrite h hl hs
        | read fd len =>
          obtain ⟨⟨v, bytes, k1⟩, hx, he⟩ := Option.map_eq_some_iff.mp hs
          cases he
          exact A.sysRead h hl hx
        | lseek fd offset whence =>
          have hk : k' = (k.sysLseek env fd offset whence).2 := answer_pure hs
          rw [hk]
          exact A.sysLseek h hl fd offset whence
        | ioctl fd =>
          have hk : k' = (k.sysIoctl env fd).2 := answer_pure hs
          rw [hk]
          exact A.sysIoctl h hl fd
        | readdir fd =>
          have hk : k' = (k.sysReaddir env fd).2 := answer_pure hs
          rw [hk]
          exact A.sysReaddir h hl (fun hfd hn hm hfs hh => hcast rfl hfd hn hm hfs hh)
        | chdir path =>
          obtain ⟨a, hs⟩ := answer_some hs
          exact A.sysChdir h hl hs
        | _ => simp [Event.lifecycle, Event.onTable, Event.onTree] at hq ht htree

end CallRule

end LosTacOS.Os.Kernel
