import LosTacOS.Os.Creators
import LosTacOS.Os.Nesting

/-! What is read back of a symbolic link. The search of `sys_readlink` follows links, so it does not
come to the one that it is for, and `create_node` leaves the field that is read as it finds it. -/
namespace LosTacOS.Os

/-- What the `symlink` field of a node points at. -/
inductive LinkField where
  | null
  | text (t : List Char)
  | wild
deriving DecidableEq

/-- What a call finds in memory: the text at an address, none where that faults, and what is left in
the field of a node that no link was made of. -/
structure LinkMemory where
  text : Nat → Option (List Char)
  stale : Nat → LinkField

structure LinkCaller where
  path : Nat
  buf : Nat
  size : Nat
  path_ne : path ≠ 0
  buf_ne : buf ≠ 0
  apart : buf ≠ path

inductive LinkCall where
  | readlink
  | readlinkat (fd : Nat)

/-- The registers of a call that `syscall_handler` hands on. -/
def LinkCaller.registers (r : LinkCaller) : LinkCall → Nat × Nat × Nat
  | .readlink => (r.path, r.buf, r.size)
  | .readlinkat fd => (fd, r.path, r.buf)

def atFdcwd : Nat := 2 ^ 64 - 100

namespace Kernel

variable {env : Env} {k k' k1 q : Kernel} {n x d dir : Nat} {ps : List (List Char)}
  {path l t a : List Char} {m : LinkMemory} {r : LinkCaller}

section read

def locate (env : Env) (k : Kernel) (path : List Char) : Option (Option Nat × Kernel) := do
  let path ← k.absPath env path
  k.find env path

/-- The field of a node; a link that was made a mount since and has no text counts as never set. -/
def linkField (m : LinkMemory) (k : Kernel) (n : Nat) : LinkField :=
  if (k.node n).type = .symlink ∨ (k.node n).symlink ≠ [] then .text (k.node n).symlink
  else m.stale n

/-- `sys_readlink`: none for -1, else the bytes and where they go. -/
def readLinkInto (env : Env) (m : LinkMemory) (k : Kernel) (path buf bufsize : Nat) :
    Option (Option (Nat × List Char) × Kernel) :=
  if path = 0 ∨ buf = 0 ∨ bufsize = 0 then some (none, k)
  else do
    let path ← m.text path
    let (node, k) ← k.locate env path
    match node with
    | none => some (none, k)
    | some n =>
      match k.linkField m n with
      | .null => some (none, k)
      | .text t => some (some (buf, t.take bufsize), k)
      | .wild => none

def handleReadlink (env : Env) (m : LinkMemory) (k : Kernel) (regs : Nat × Nat × Nat) :
    Option (Option (Nat × List Char) × Kernel) :=
  k.readLinkInto env m regs.1 regs.2.1 regs.2.2

def GivesText (env : Env) (m : LinkMemory) (k : Kernel) (r : LinkCaller) (t : List Char)
    (call : LinkCall) : Prop :=
  ∃ k', k.handleReadlink env m (r.registers call) = some (some (r.buf, t.take r.size), k')

def Declines (env : Env) (m : LinkMemory) (k : Kernel) (r : LinkCaller) : Prop :=
  ∃ k', k.handleReadlink env m (r.registers .readlink) = some (none, k')

/-- What reading promises in the state after a link to `t` was made: both calls give its text, and
for a node that is no link there is none. -/
structure ReadsBack (env : Env) (m : LinkMemory) (k : Kernel) (r : LinkCaller) (fd : Nat)
    (t : List Char) : Prop where
  readlink : k.GivesText env m r t .readlink
  readlinkat : k.GivesText env m r t (.readlinkat fd)
  others : ∀ (r' : LinkCaller) path x q, m.text r'.path = some path →
    k.locate env path = some (some x, q) → (q.node x).type ≠ .symlink → k.Declines env m r'

/-- The other call has the path in the place of the buffer. -/
theorem not_readlinkat {fd : Nat} : ¬k.GivesText env m r t (.readlinkat fd) := by
  rintro ⟨k', h⟩
  replace h : k.readLinkInto env m fd r.path r.buf = some (some (r.buf, t.take r.size), k') := h
  rw [readLinkInto] at h
  split_ifs at h
  · cases h
  · obtain ⟨path, _, h⟩ := Option.bind_eq_some_iff.mp h
    obtain ⟨⟨node, q⟩, _, h⟩ := Option.bind_eq_some_iff.mp h
    cases node with
    | none => cases h
    | some n =>
      dsimp only at h
      cases hf : q.linkField m n with
      | null =>
        rw [hf] at h
        cases h
      | text u =>
        rw [hf] at h
        have hbuf : r.path = r.buf := congrArg Prod.fst (Option.some.inj (congrArg Prod.fst
          (Option.some.inj h)))
        exact r.apart hbuf.symm
      | wild =>
        rw [hf] at h
        cases h

theorem handleReadlink_eq (hsize : r.size ≠ 0) (ht : m.text r.path = some path) :
    k.handleReadlink env m (r.registers .readlink) =
      (k.locate env path).bind fun y =>
        match y.1 with
        | none => some (none, y.2)
        | some n =>
          match y.2.linkField m n with
          | .null => some (none, y.2)
          | .text t => some (some (r.buf, t.take r.size), y.2)
          | .wild => none := by
  have hnot : ¬(r.path = 0 ∨ r.buf = 0 ∨ r.size = 0) := by
    rintro (hp | hb | hs)
    · exact r.path_ne hp
    · exact r.buf_ne hb
    · exact hsize hs
  change k.readLinkInto env m r.path r.buf r.size = _
  rw [readLinkInto, if_neg hnot, ht]
  rfl

/-- What is given is the field of the node that the search ends on. -/
theorem givesText_iff (ht : m.text r.path = some path) :
    k.GivesText env m r t .readlink ↔ r.size ≠ 0 ∧ ∃ x q u,
      k.locate env path = some (some x, q) ∧ q.linkField m x = .text u ∧
        u.take r.size = t.take r.size := by
  by_cases hsize : r.size = 0
  · constructor
    · rintro ⟨k', h⟩
      replace h : k.readLinkInto env m r.path r.buf r.size = _ := h
      rw [readLinkInto, if_pos (Or.inr (Or.inr hsize))] at h
      cases h
    · exact fun h => absurd hsize h.1
  · rw [GivesText, handleReadlink_eq hsize ht]
    constructor
    · rintro ⟨k', h⟩
      obtain ⟨⟨node, q⟩, hq, h⟩ := Option.bind_eq_some_iff.mp h
      cases node with
      | none => cases h
      | some x =>
        dsimp only at h
        cases hf : q.linkField m x with
        | null =>
          rw [hf] at h
          cases h
        | text u =>
          rw [hf] at h
          have htake : u.take r.size = t.take r.size := congrArg Prod.snd (Option.some.inj
            (congrArg Prod.fst (Option.some.inj h)))
          exact ⟨hsize, x, q, u, hq, hf, htake⟩
        | wild =>
          rw [hf] at h
          cases h
    · rintro ⟨_, x, q, u, hq, hf, htake⟩
      refine ⟨q, ?_⟩
      rw [hq, Option.bind_some]
      dsimp only
      rw [hf, ← htake]

/-- A node has no text exactly when its field happens to be null. -/
theorem declines_iff (hsize : r.size ≠ 0) (ht : m.text r.path = some path)
    (hq : k.locate env path = some (some x, q)) :
    k.Declines env m r ↔ q.linkField m x = .null := by
  rw [Declines, handleReadlink_eq hsize ht, hq, Option.bind_some]
  dsimp only
  cases hf : q.linkField m x with
  | null => exact ⟨fun _ => rfl, fun _ => ⟨q, rfl⟩⟩
  | text u =>
    refine ⟨?_, nofun⟩
    rintro ⟨k', h⟩
    cases h
  | wild =>
    refine ⟨?_, nofun⟩
    rintro ⟨k', h⟩
    cases h

end read

section passed

/-- What searches from the root come to: neither the node nor one above it is a link or has a name
that is cut, the root aside. -/
inductive Passed (k : Kernel) : Nat → Prop
  | root : Passed k k.root
  | child {d c : Nat} : Passed k d → c ∈ (k.node d).children → (k.node c).type ≠ .symlink →
      (k.node c).name.length ≤ 127 → Passed k c

theorem Passed.linked (h : k.Passed n) : k.Linked n := by
  induction h with
  | root => exact .refl
  | child _ hc _ _ ih => exact .child ih hc

theorem Passed.not_link (h : k.Passed n) (hn : n ≠ k.root) : (k.node n).type ≠ .symlink := by
  cases h with
  | root => exact absurd rfl hn
  | child _ _ ht _ => exact ht

structure KeepsEntries (k k' : Kernel) : Prop extends KeepsTypes k k' where
  name : ∀ m, k.Linked m → (k'.node m).name = (k.node m).name

theorem KeepsEntries.of_nodes (hn : k'.nodes = k.nodes) (hr : k'.root = k.root) :
    KeepsEntries k k' :=
  ⟨.of_nodes hn hr, (KeepsNames.of_nodes hn hr).name⟩

theorem KeepsEntries.trans (h : KeepsEntries k k1) (h' : KeepsEntries k1 k') :
    KeepsEntries k k' where
  toKeepsTypes := h.toKeepsTypes.trans h'.toKeepsTypes
  name m hm := (h'.name m (h.linked hm)).trans (h.name m hm)

theorem KeepsEntries.passed (h : KeepsEntries k k') (hn : k.Passed n) : k'.Passed n := by
  induction hn with
  | root =>
    rw [← h.root]
    exact .root
  | child hd hc ht hlen ih =>
    have hl := Under.child hd.linked hc
    refine .child ih (h.children _ hd.linked _ hc) ?_ ?_
    · rw [h.type _ hl]
      exact ht
    · rw [h.name _ hl]
      exact hlen

theorem passed_stands : StandRule env Rooted KeepsEntries (fun _ _ => True) Passed where
  refl _ := .of_nodes rfl rfl
  trans h h' := h.trans h'
  keep _ _ := trivial
  root _ := trivial
  cwd _ := trivial
  parent _ _ _ := trivial
  child _ _ _ := trivial
  alloc h := ⟨h.of_shape rfl, .of_nodes rfl rfl⟩
  device _ h := ⟨h.of_shape rfl, .of_nodes rfl rfl⟩
  dev := by
    intro k name dir n k' dev h _ _ hc
    obtain ⟨hr, hkeeps⟩ := KeepsTypes.device dev h hc
    exact ⟨hr, hkeeps, (reachable_stands.dev dev h trivial trivial hc).2.name⟩
  ask := by
    intro k k' n fs found _ _ _ _ _ h _
    cases found with
    | false => exact ⟨h.of_shape rfl, .of_nodes rfl rfl⟩
    | true => exact ⟨h.of_shape rfl, .of_nodes rfl rfl⟩
  stays hR hv := hR.passed hv
  top _ := .root
  above := by
    intro k n h hv
    cases hv with
    | root =>
      rw [h.top]
      exact .root
    | child hd hc _ _ =>
      rw [h.up hd.linked hc]
      exact hd
  below := by
    intro k n s c _ hv _ hs hc ht
    obtain ⟨hm, hname⟩ := findIn_child hc
    refine .child hv hm ht ?_
    rw [hname]
    exact hs

theorem getPath_slash (h : k.getPath env d = some a) : a = [] ∨ a.head? = some '/' := by
  unfold getPath at h
  split at h
  · cases h
    exact Or.inr rfl
  · exact pathFrom_slash (Option.filter_eq_some_iff.mp h).1 (Or.inl rfl)

/-- What stands behind a directory begins with a slash. -/
theorem behind_slash (h : a = [] ∨ a.head? = some '/') :
    ∃ rest, ((if a.getLast? = some '/' then a else a ++ ['/']) ++ path).take 255 = '/' :: rest := by
  cases h with
  | inl hnil =>
    rw [hnil]
    exact ⟨_, rfl⟩
  | inr hhead =>
    obtain ⟨u, rfl⟩ := List.head?_eq_some_iff.mp hhead
    split
    · exact ⟨_, rfl⟩
    · exact ⟨_, rfl⟩

theorem absPath_slash (h : k.absPath env path = some a) : ∃ rest, a = '/' :: rest := by
  unfold absPath at h
  split at h
  · rename_i habs
    cases h
    exact List.head?_eq_some_iff.mp habs
  · cases hp : k.currentProc with
    | none =>
      simp only [hp, Option.bind_eq_bind, Option.bind_some] at h
      cases h
      exact behind_slash (Or.inr rfl)
    | some p =>
      simp only [hp] at h
      cases hc : (k.proc p).cwd with
      | none =>
        simp only [hc, Option.bind_eq_bind, Option.bind_some] at h
        cases h
        exact behind_slash (Or.inr rfl)
      | some n =>
        simp only [hc] at h
        obtain ⟨base, hb, h⟩ := Option.bind_eq_some_iff.mp h
        cases h
        exact behind_slash (getPath_slash hb)

/-- The search of `sys_readlink` does not end on a link. -/
theorem locate_passed (h : Rooted k) (hq : k.locate env path = some (some x, q)) :
    KeepsEntries k q ∧ q.Passed x := by
  obtain ⟨a, ha, hf⟩ := Option.bind_eq_some_iff.mp hq
  obtain ⟨rest, rfl⟩ := absPath_slash ha
  exact ⟨(passed_stands.follows env.fuel h trivial hf).2.1, passed_stands.findTo env.fuel h hf⟩

end passed

section made

theorem Rooted.found {s : List Char} (h : Rooted k) (hd : k.Linked dir)
    (hf : k.findIn dir s = some n) : k.Linked n ∧ n ≠ k.root :=
  ⟨hd.findIn hf, (h.child_ne hd (findIn_child hf).1).1⟩

theorem Rooted.created {s : List Char} {b : Bool} (h : Rooted k) (hd : k.Linked dir)
    (hc : k.createNode env s b dir = some (n, k')) : k'.Linked n ∧ n ≠ k'.root := by
  obtain ⟨hn, rfl⟩ := createNode_eq env hc
  have h0 : Rooted { k with allocs := k.allocs + 1 } := h.of_shape rfl
  refine ⟨h0.new_linked hn (hd.of_shape rfl), fun he => hn ?_⟩
  rw [he]
  exact h.used .refl

/-- What `create_file_path` comes back with stands under a node of the tree. -/
theorem createFileIn_under (h : Rooted k) (hd : k.Linked dir)
    (hc : createFileIn env ps dir k = some (some n, k')) :
    Rooted k' ∧ k'.Linked n ∧ n ≠ k'.root := by
  have hrun := createFileIn_creates hc
  generalize hsome : some n = r at hrun
  clear hc
  induction hrun with
  | nil => cases hsome
  | found hf =>
    cases hsome
    exact ⟨h, h.found hd hf⟩
  | made _ hm =>
    cases hsome
    exact ⟨h.createNode hm, h.created hd hm⟩
  | blocked => cases hsome
  | down hf _ _ ih => exact ih h (hd.findIn hf) hsome
  | make _ hm _ ih => exact ih (h.createNode hm) (h.created hd hm).1 hsome

/-- `sys_symlink` makes a link that is there in the tree, below the root. -/
theorem sysSymlink_made (h : Rooted k) (hs : k.sysSymlink env t l = some (0, k1)) :
    Rooted k1 ∧ ∃ n, k1.Linked n ∧ n ≠ k1.root ∧ (k1.node n).type = .symlink ∧
      (k1.node n).symlink = t := by
  obtain ⟨a, ha, hs⟩ := Option.bind_eq_some_iff.mp hs
  obtain ⟨⟨node, q⟩, hc, hs⟩ := Option.bind_eq_some_iff.mp hs
  obtain ⟨rest, rfl⟩ := absPath_slash ha
  obtain ⟨q', hq, hend⟩ := createSymlinkPath_cases hc
  rcases hend with ⟨rfl, rfl⟩ | ⟨n, rfl, rfl⟩
  · cases hs
  · cases hs
    rw [createFilePath, if_neg (List.cons_ne_nil _ _)] at hq
    have hstart : k.Linked (k.startDir ('/' :: rest)) := .refl
    obtain ⟨hr, hl, hne⟩ := createFileIn_under h hstart hq
    have hshape : (q'.setNode n { q'.node n with type := .symlink, symlink := t }).shape =
        q'.shape := setNode_shape rfl rfl
    refine ⟨hr.of_shape hshape, n, hl.of_shape hshape, hne, ?_, ?_⟩
    · rw [setNode_node, if_pos rfl]
    · rw [setNode_node, if_pos rfl]

/-- Nothing that the search of `sys_readlink` ends on is the link. -/
theorem locate_not_made (h : Rooted k) (hn : k.Linked n) (hroot : n ≠ k.root)
    (ht : (k.node n).type = .symlink) (hq : k.locate env path = some (some x, q)) : x ≠ n := by
  rintro rfl
  obtain ⟨hkeeps, hpassed⟩ := locate_passed h hq
  refine hpassed.not_link ?_ ?_
  · rw [hkeeps.root]
    exact hroot
  · rw [hkeeps.type x hn]
    exact ht

/-- A link is never read back. The link is there and has its text, but no search comes to it: what
`SYS_READLINK` gives is the field of another node, and `-1` for a node comes from a field that
happens to be null. -/
theorem link_not_read_back {ok : Env → Kernel → Event → Prop} {fd : Nat} (hk : Reached ok k)
    (hs : k.sysSymlink env t l = some (0, k1)) (hl : m.text r.path = some l) :
    ¬k1.ReadsBack env m r fd t ∧
    (∃ n, (k1.node n).type = .symlink ∧ (k1.node n).symlink = t ∧
      (k1.GivesText env m r t .readlink ↔ r.size ≠ 0 ∧ ∃ x q u, x ≠ n ∧
        k1.locate env l = some (some x, q) ∧ q.linkField m x = .text u ∧
          u.take r.size = t.take r.size)) ∧
    ∀ (r' : LinkCaller) path x q, r'.size ≠ 0 → m.text r'.path = some path →
      k1.locate env path = some (some x, q) → (k1.Declines env m r' ↔ q.linkField m x = .null) := by
  refine ⟨fun h => not_readlinkat h.readlinkat, ?_,
    fun _ _ _ _ hsize hpath hq => declines_iff hsize hpath hq⟩
  obtain ⟨hr, n, hn, hroot, ht, htext⟩ := sysSymlink_made hk.rooted hs
  refine ⟨n, ht, htext, ?_⟩
  rw [givesText_iff hl]
  constructor
  · rintro ⟨hsize, x, q, u, hq, hu⟩
    exact ⟨hsize, x, q, u, locate_not_made hr hn hroot ht hq, hq, hu⟩
  · rintro ⟨hsize, x, q, u, -, hq, hu⟩
    exact ⟨hsize, x, q, u, hq, hu⟩

def callerAt (size : Nat) : LinkCaller where
  path := 1
  buf := 4096
  size := size
  path_ne := by decide
  buf_ne := by decide
  apart := by decide

def nullMemory (path : List Char) : LinkMemory where
  text a := if a = 1 then some path else none
  stale _ := .null

theorem link_not_read_back_dangling : ∃ k1,
    boot.sysSymlink freshEnv "/g".toList "/f".toList = some (0, k1) ∧
    ¬k1.ReadsBack freshEnv (nullMemory "/f".toList) (callerAt 16) atFdcwd "/g".toList := by
  have hrun : (boot.sysSymlink freshEnv "/g".toList "/f".toList).any
      (fun y => y.1 = 0) = true := by decide +kernel
  obtain ⟨⟨r, k1⟩, hk, hr⟩ := any_exists hrun
  obtain rfl : r = 0 := of_decide_eq_true hr
  have hboot : Reached (fun _ _ _ => True) boot := .boot
  exact ⟨k1, hk, (link_not_read_back hboot hk rfl).1⟩

/-- The text of a link to a file that is not there cannot be read. -/
theorem dangling_not_read : ¬ ∀ (env : Env) (k k1 q : Kernel) (m : LinkMemory) (r : LinkCaller)
    (t l dir name : List Char) (d : Nat), Reached (fun _ _ _ => True) k → t.length ≤ 255 →
    k.locate env l = some (none, q) → l = dir ++ name → '/' ∉ name →
    k.locate env dir = some (some d, q) → (k.node d).directory = true →
    k.sysSymlink env t l = some (0, k1) → m.text r.path = some l →
    k1.ReadsBack env m r atFdcwd t := by
  intro hall
  have hrun : (boot.sysSymlink freshEnv "/g".toList "/f".toList).any (fun y => y.1 = 0 ∧
      (y.2.handleReadlink freshEnv (nullMemory "/f".toList) (1, 4096, 16)).any
        (fun z => z.1 = none)) = true := by decide +kernel
  obtain ⟨⟨r, k1⟩, hk, h⟩ := any_exists hrun
  obtain ⟨rfl, hread⟩ := of_decide_eq_true h
  obtain ⟨⟨o, k'⟩, hk', hnone⟩ := any_exists hread
  obtain rfl : o = none := of_decide_eq_true hnone
  have hback := hall freshEnv boot k1 boot (nullMemory "/f".toList) (callerAt 16) "/g".toList
    "/f".toList "/".toList "f".toList 0 .boot (by decide) rfl rfl (by decide) rfl rfl hk rfl
  obtain ⟨k2, hgive⟩ := hback.readlink
  rw [show (callerAt 16).registers .readlink = (1, 4096, 16) from rfl, hk'] at hgive
  cases hgive

end made

end Kernel

end LosTacOS.Os
