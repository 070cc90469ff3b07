import LosTacOS.Os.Creators
import LosTacOS.Os.Existence
import LosTacOS.Os.Misses

/-! What an `open` that fails leaves behind. The handle or the node is there before it is known
whether a descriptor is free. -/
namespace LosTacOS.Os.Kernel

variable {env : Env} {k k' q : Kernel} {path a : List Char} {flags : Nat} {node : Option Nat}

section searched

/-- What `open` works on besides the tree, the devices and the calls to file systems. -/
def aside (k : Kernel) : ProcSide × Arena File × Arena (Nat → UInt8) × Arena Mount × List Nat :=
  (k.procSide, k.files, k.blocks, k.mounts, k.mountTable)

def Balanced (calls : List FsCall) : Prop :=
  ∀ fs data h, FsCall.opened fs data (some h) ∈ calls → FsCall.closed fs h ∈ calls

/-- What a search leaves: it may have made nodes and devices, and it has closed what it opened. -/
structure Searched (k k' : Kernel) : Prop where
  used : k.nodes.used ⊆ k'.nodes.used
  nodes : k'.nodes.used = k.nodes.used → k'.nodes = k.nodes
  aside : k'.aside = k.aside
  handles : k.handles ≤ k'.handles
  calls : ∃ calls, k'.fsLog = calls ++ k.fsLog ∧ Balanced calls ∧
    ∀ fs h, .closed fs h ∈ calls → h < k'.handles

theorem Searched.same (hn : k'.nodes = k.nodes) (ha : k'.aside = k.aside)
    (hh : k'.handles = k.handles) (hl : k'.fsLog = k.fsLog) : Searched k k' := by
  refine ⟨?_, fun _ => hn, ha, hh.ge, [], hl, nofun, nofun⟩
  rw [hn]

theorem Searched.trans {b c : Kernel} (h : Searched k b) (h' : Searched b c) : Searched k c := by
  obtain ⟨calls, hlog, hbal, hlt⟩ := h.calls
  obtain ⟨later, hlog', hbal', hlt'⟩ := h'.calls
  refine ⟨h.used.trans h'.used, fun he => ?_, h'.aside.trans h.aside,
    h.handles.trans h'.handles, later ++ calls, ?_, ?_, ?_⟩
  · have hb : b.nodes.used = k.nodes.used :=
      Finset.Subset.antisymm (he ▸ h'.used) h.used
    rw [h'.nodes (he.trans hb.symm), h.nodes hb]
  · rw [hlog', hlog, List.append_assoc]
  · intro fs data x hx
    rcases List.mem_append.mp hx with hx | hx
    · exact List.mem_append_left _ (hbal' fs data x hx)
    · exact List.mem_append_right _ (hbal fs data x hx)
  · intro fs x hx
    rcases List.mem_append.mp hx with hx | hx
    · exact hlt' fs x hx
    · exact (hlt fs x hx).trans_le h'.handles

theorem Searched.made {n : Nat} (hn : n ∉ k.nodes.used) (hu : k'.nodes.used = insert n k.nodes.used)
    (ha : k'.aside = k.aside) (hh : k'.handles = k.handles) (hl : k'.fsLog = k.fsLog) :
    Searched k k' := by
  refine ⟨?_, fun he => ?_, ha, hh.ge, [], hl, nofun, nofun⟩
  · rw [hu]
    exact Finset.subset_insert _ _
  · rw [hu] at he
    exact absurd (Finset.insert_eq_self.mp he) hn

theorem Searched.asked (fs : FileSystem) (data : Nat) (found : Bool) :
    Searched k (k.asked fs data found) := by
  cases found with
  | false =>
    refine ⟨fun _ hx => hx, fun _ => rfl, rfl, Nat.le_succ _, [.opened fs data none], rfl, ?_, ?_⟩
    · intro fs' data' h hx
      simp at hx
    · intro fs' h hx
      simp at hx
  | true =>
    refine ⟨fun _ hx => hx, fun _ => rfl, rfl, Nat.le_succ _,
      [.closed fs k.handles, .opened fs data (some k.handles)], rfl, ?_, ?_⟩
    · intro fs' data' h hx
      simp only [List.mem_cons, reduceCtorEq, FsCall.opened.injEq, Option.some.injEq,
        List.not_mem_nil, or_false, false_or] at hx
      rw [hx.1, hx.2.2]
      exact List.mem_cons_self
    · intro fs' h hx
      simp only [List.mem_cons, reduceCtorEq, FsCall.closed.injEq, List.not_mem_nil,
        or_false] at hx
      rw [hx.2]
      exact Nat.lt_succ_self _

end searched

theorem placeIn_of_nodes (h : q.nodes = k.nodes) (ps : List (List Char)) (dir : Nat) :
    q.placeIn ps dir = k.placeIn ps dir := by
  induction ps generalizing dir with
  | nil => rfl
  | cons part ps ih =>
    cases ps with
    | nil => rw [placeIn, placeIn, findIn_of_nodes h]
    | cons next ps =>
      have hnode : ∀ n, q.node n = k.node n := fun n => by rw [node, node, h]
      simp only [placeIn, findIn_of_nodes h, hnode, ih]

theorem Grown.place (h : Grown k q) (hsame : q.nodes.used = k.nodes.used) (path : List Char) :
    q.place path = k.place path := by
  unfold Kernel.place
  rw [placeIn_of_nodes (h.same hsame), startDir_of_procSide h.procs h.root]

section mounted

variable {fs : FileSystem} {data : Nat} {sub : List Char}

end mounted

section node

end node

end LosTacOS.Os.Kernel
