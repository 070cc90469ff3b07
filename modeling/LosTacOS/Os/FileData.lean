import LosTacOS.Os.Frame
import LosTacOS.Os.Linked

/-! The data of files: which node a block of the heap belongs to, and which data is only borrowed
from an archive. -/
namespace LosTacOS.Os.Kernel

variable {env : Env} {k k' k1 : Kernel} {n m f b : Nat}

def fileData (k : Kernel) (n : Nat) : Option Ptr :=
  (k.node n).file.bind fun f => (k.files.cell f).privateData

def fileSize (k : Kernel) (n : Nat) : Nat :=
  ((k.node n).file.map fun f => (k.files.cell f).size).getD 0

/-- Each file belongs to one node. Data at the start of a block fills a block of its own; any other
data lies in memory outside the heap or in a block that no file owns. -/
structure DataKept (k : Kernel) : Prop where
  record : ∀ n ∈ k.nodes.used, ∀ f, (k.node n).file = some f → f ∈ k.files.used
  single : ∀ n ∈ k.nodes.used, ∀ m ∈ k.nodes.used, ∀ f, (k.node n).file = some f →
    (k.node m).file = some f → m = n
  zero : 0 ∉ k.blocks.used
  block : ∀ n ∈ k.nodes.used, ∀ p, k.fileData n = some p → p.off = 0 →
    p.block ∈ k.blocks.used ∧ k.fileSize n < k.blockLen p.block
  known : ∀ n ∈ k.nodes.used, ∀ p, k.fileData n = some p → p.block = 0 ∨ p.block ∈ k.blocks.used
  apart : ∀ n ∈ k.nodes.used, ∀ m ∈ k.nodes.used, ∀ p q, k.fileData n = some p →
    k.fileData m = some q → p.off = 0 → q.block = p.block → m = n
  empty : ∀ n ∈ k.nodes.used, k.fileData n = none → k.fileSize n = 0

theorem fileData_eq (hf : (k.node n).file = some f) :
    k.fileData n = (k.files.cell f).privateData := by
  unfold fileData
  rw [hf]
  rfl

theorem fileSize_eq (hf : (k.node n).file = some f) : k.fileSize n = (k.files.cell f).size := by
  unfold fileSize
  rw [hf]
  rfl

theorem fileData_file {p : Ptr} (h : k.fileData n = some p) : ∃ f, (k.node n).file = some f ∧
    (k.files.cell f).privateData = some p := Option.bind_eq_some_iff.mp h

section same

structure SameData (k k' : Kernel) : Prop where
  files : k'.files = k.files
  blocks : k'.blocks = k.blocks
  blockLen : k'.blockLen = k.blockLen
  freed : k'.freed = k.freed
  old : ∀ n ∈ k'.nodes.used, ∀ f, (k'.node n).file = some f →
    n ∈ k.nodes.used ∧ (k.node n).file = some f

theorem SameData.refl (k : Kernel) : SameData k k := ⟨rfl, rfl, rfl, rfl, fun _ hn _ hf => ⟨hn, hf⟩⟩

theorem SameData.trans {a b c : Kernel} (h : SameData a b) (h' : SameData b c) : SameData a c := by
  refine ⟨h'.files.trans h.files, h'.blocks.trans h.blocks, h'.blockLen.trans h.blockLen,
    h'.freed.trans h.freed, fun n hn f hf => ?_⟩
  obtain ⟨h1, h2⟩ := h'.old n hn f hf
  exact h.old n h1 f h2

theorem SameData.of_nodes (hn : k'.nodes = k.nodes) (hf : k'.files = k.files)
    (hb : k'.blocks = k.blocks) (hl : k'.blockLen = k.blockLen) (hfr : k'.freed = k.freed) :
    SameData k k' := by
  refine ⟨hf, hb, hl, hfr, fun n hu f h => ?_⟩
  unfold node at h ⊢
  rw [hn] at hu h
  exact ⟨hu, h⟩

theorem SameData.data {p : Ptr} (h : SameData k k') (hn : n ∈ k'.nodes.used)
    (hp : k'.fileData n = some p) : n ∈ k.nodes.used ∧ k.fileData n = some p ∧
      k.fileSize n = k'.fileSize n := by
  obtain ⟨f, hf, hd⟩ := fileData_file hp
  obtain ⟨hu, hf'⟩ := h.old n hn f hf
  rw [fileData_eq hf', fileSize_eq hf', fileSize_eq hf, ← h.files]
  exact ⟨hu, hd, rfl⟩

theorem DataKept.of_same (hk : DataKept k) (h : SameData k k') : DataKept k' where
  record n hn f hf := by
    obtain ⟨hu, hf'⟩ := h.old n hn f hf
    rw [h.files]
    exact hk.record n hu f hf'
  single n hn m hm f hf hf' := by
    obtain ⟨hu, h1⟩ := h.old n hn f hf
    obtain ⟨hu', h2⟩ := h.old m hm f hf'
    exact hk.single n hu m hu' f h1 h2
  zero := by
    rw [h.blocks]
    exact hk.zero
  block n hn p hp ho := by
    obtain ⟨hu, hp', hs⟩ := h.data hn hp
    rw [h.blocks, h.blockLen, ← hs]
    exact hk.block n hu p hp' ho
  known n hn p hp := by
    obtain ⟨hu, hp', _⟩ := h.data hn hp
    rw [h.blocks]
    exact hk.known n hu p hp'
  apart n hn m hm p q hp hq := by
    obtain ⟨hu, hp', _⟩ := h.data hn hp
    obtain ⟨hu', hq', _⟩ := h.data hm hq
    exact hk.apart n hu m hu' p q hp' hq'
  empty n hn hp := by
    cases hf : (k'.node n).file with
    | none =>
      unfold fileSize
      rw [hf]
      rfl
    | some f =>
      obtain ⟨hu, hf'⟩ := h.old n hn f hf
      rw [fileData_eq hf, h.files, ← fileData_eq hf'] at hp
      rw [fileSize_eq hf, h.files, ← fileSize_eq hf']
      exact hk.empty n hu hp

theorem SameData.setNode {x : Node} (hx : x.file = (k.node n).file) : SameData k (k.setNode n x) := by
  refine ⟨rfl, rfl, rfl, rfl, fun m hm f hf => ⟨hm, ?_⟩⟩
  rw [setNode_node] at hf
  split at hf
  · rename_i hmn
    rw [hmn, ← hx]
    exact hf
  · exact hf

theorem SameData.linkNew {name : List Char} {x : Bool} {dir : Nat} :
    SameData k (k.linkNew n name x dir) := by
  refine ⟨rfl, rfl, rfl, rfl, fun m hm f hf => ?_⟩
  have hold : ∀ y, (if y = n then k.newNode name x dir else k.node y).file = some f →
      y ≠ n ∧ (k.node y).file = some f := by
    intro y hy
    split at hy
    · cases hy
    · rename_i hyn
      exact ⟨hyn, hy⟩
  rw [linkNew_node] at hf
  dsimp only at hf
  have hmf : m ≠ n ∧ (k.node m).file = some f := by
    by_cases hmd : m = dir
    · rw [if_pos hmd] at hf
      rw [hmd]
      exact hold dir hf
    · rw [if_neg hmd] at hf
      exact hold m hf
  exact ⟨Finset.mem_of_mem_insert_of_ne hm hmf.1, hmf.2⟩

end same

section search

structure AtHome (k : Kernel) : Prop extends Rooted k where
  home : k.getProcessCwd = k.root

theorem AtHome.of_shape (h : AtHome k) (hs : k'.shape = k.shape)
    (hh : k'.getProcessCwd = k.getProcessCwd) : AtHome k' := by
  have hroot : k'.root = k.root := congrArg (·.1) hs
  refine ⟨h.toRooted.of_shape hs, ?_⟩
  rw [hh, hroot]
  exact h.home

structure Quiet (k k' : Kernel) : Prop extends SameData k k' where
  linked : KeepsLinked k k'

theorem Quiet.of_same (hs : k'.shape = k.shape) (h : SameData k k') : Quiet k k' :=
  ⟨h, .of_shape hs⟩

theorem AtHome.setNode {x : Node} (h : AtHome k) (hp : x.parent = (k.node n).parent)
    (hc : x.children = (k.node n).children) (hf : x.file = (k.node n).file) :
    AtHome (k.setNode n x) ∧ Quiet k (k.setNode n x) :=
  ⟨h.of_shape (setNode_shape hp hc) rfl, .of_same (setNode_shape hp hc) (.setNode hf)⟩

theorem AtHome.createNode {name : List Char} {x : Bool} {dir : Nat} (h : AtHome k)
    (hd : k.Linked dir) (hc : k.createNode env name x dir = some (n, k')) :
    AtHome k' ∧ Quiet k k' ∧ k'.Linked n := by
  obtain ⟨hn, rfl⟩ := createNode_eq env hc
  have h1 : AtHome { k with allocs := k.allocs + 1 } := h.of_shape rfl rfl
  have hd1 : Linked { k with allocs := k.allocs + 1 } dir := hd.of_shape rfl
  have hsame : SameData k { k with allocs := k.allocs + 1 } := .of_nodes rfl rfl rfl rfl rfl
  refine ⟨⟨h1.toRooted.linkNew hn hd1, h.home⟩, ⟨hsame.trans .linkNew, fun m hm => ?_⟩,
    h1.new_linked hn hd1⟩
  exact Linked.linkNew h1.toRooted hn hd1 (hm.of_shape rfl)

theorem home_nodes : NodeRule env AtHome Quiet Linked (fun _ _ _ => True) where
  refl k := .of_same rfl (.refl k)
  trans h h' := ⟨h.toSameData.trans h'.toSameData, fun n hn => h'.linked n (h.linked n hn)⟩
  keep h hn := h.linked _ hn
  root _ := .refl
  cwd h := by
    rw [h.home]
    exact .refl
  parent h hn hp := h.linked_parent hn hp
  child _ hn hc := hn.findIn hc
  alloc h := ⟨h.of_shape rfl rfl, .of_same rfl (.of_nodes rfl rfl rfl rfl rfl)⟩
  device _ h := ⟨h.of_shape rfl rfl, .of_same rfl (.of_nodes rfl rfl rfl rfl rfl)⟩
  dev := by
    intro k name dir n k' dev h hd _ hc
    obtain ⟨h1, h2, _⟩ := h.createNode hd hc
    obtain ⟨h3, h4⟩ := h1.setNode (n := n) (x := { k'.node n with dev := some dev, type := .dev })
      rfl rfl rfl
    exact ⟨h3, h2.toSameData.trans h4.toSameData, fun m hm => h4.linked m (h2.linked m hm)⟩
  ask := by
    intro k k' n fs found _ _ _ _ _ h _
    cases found with
    | false => exact ⟨h.of_shape rfl rfl, .of_same rfl (.of_nodes rfl rfl rfl rfl rfl)⟩
    | true => exact ⟨h.of_shape rfl rfl, .of_same rfl (.of_nodes rfl rfl rfl rfl rfl)⟩
  create h hd hc := h.createNode hd hc
  link _ h _ := h.setNode rfl rfl rfl
  carry _ _ := trivial
  null := trivial
  volume _ _ h := ⟨h.of_shape rfl rfl, .of_same rfl (.of_nodes rfl rfl rfl rfl rfl), trivial⟩
  retype h _ _ := h.setNode rfl rfl rfl
  table h _ _ := ⟨h.of_shape rfl rfl, .of_same rfl (.of_nodes rfl rfl rfl rfl rfl)⟩

end search

section data

structure OwnedStart (k : Kernel) (p : Ptr) : Prop where
  start : p.off = 0
  live : p.block ∈ k.blocks.used
  owner : ∃ n ∈ k.nodes.used, k.fileData n = some p ∧
    ∀ m ∈ k.nodes.used, ∀ q, k.fileData m = some q → q.block = p.block → m = n

theorem DataKept.owned {p : Ptr} (h : DataKept k) (hn : n ∈ k.nodes.used)
    (hp : k.fileData n = some p) (ho : p.off = 0) : k.OwnedStart p :=
  ⟨ho, (h.block n hn p hp ho).1, n, hn, hp, fun m hm q hq hb => h.apart n hn m hm p q hp hq ho hb⟩

theorem DataKept.known_mem {p : Ptr} (h : DataKept k) (hn : n ∈ k.nodes.used)
    (hp : k.fileData n = some p) : p.block ∈ insert 0 k.blocks.used := by
  cases h.known n hn p hp with
  | inl hz =>
    rw [hz]
    exact Finset.mem_insert_self 0 _
  | inr hu => exact Finset.mem_insert_of_mem hu

theorem DataKept.congr (h : DataKept k) (hn : k'.nodes = k.nodes) (hf : k'.files = k.files)
    (hb : k'.blocks.used = k.blocks.used) (hl : k'.blockLen = k.blockLen) : DataKept k' := by
  have hnode : ∀ n, k'.node n = k.node n := by
    intro n
    unfold node
    rw [hn]
  have hdata : ∀ n, k'.fileData n = k.fileData n := by
    intro n
    unfold fileData
    rw [hnode, hf]
  have hsize : ∀ n, k'.fileSize n = k.fileSize n := by
    intro n
    unfold fileSize
    rw [hnode, hf]
  refine ⟨?_, ?_, ?_, ?_, ?_, ?_, ?_⟩
  · simp only [hn, hf, hnode]
    exact h.record
  · simp only [hn, hnode]
    exact h.single
  · rw [hb]
    exact h.zero
  · simp only [hn, hdata, hb, hsize, hl]
    exact h.block
  · simp only [hn, hdata, hb]
    exact h.known
  · simp only [hn, hdata]
    exact h.apart
  · simp only [hn, hdata, hsize]
    exact h.empty

/-- What the files of the other nodes have to do with a change of the file at `n`. -/
structure Others (k k' : Kernel) (n : Nat) : Prop where
  used : k'.nodes.used = k.nodes.used
  record : ∀ f ∈ k.files.used, f ∈ k'.files.used
  file : ∀ m ∈ k.nodes.used, m ≠ n → (k'.node m).file = (k.node m).file ∧
    k'.fileData m = k.fileData m ∧ k'.fileSize m = k.fileSize m
  block : ∀ m ∈ k.nodes.used, m ≠ n → ∀ p, k.fileData m = some p → p.block ∈ k.blocks.used →
    p.block ∈ k'.blocks.used ∧ k'.blockLen p.block = k.blockLen p.block

structure NewData (k k' : Kernel) (n : Nat) (p : Ptr) : Prop where
  block : p.off = 0 → p.block ∈ k'.blocks.used ∧ k'.fileSize n < k'.blockLen p.block
  known : p.block = 0 ∨ p.block ∈ k'.blocks.used
  apart : ∀ m ∈ k.nodes.used, m ≠ n → ∀ q, k.fileData m = some q → p.off = 0 ∨ q.off = 0 →
    q.block ≠ p.block

theorem DataKept.change (h : DataKept k) (ho : Others k k' n) (hz : 0 ∉ k'.blocks.used)
    (hf : (k'.node n).file = some f) (hfu : f ∈ k'.files.used)
    (hfo : ∀ m ∈ k.nodes.used, m ≠ n → (k.node m).file ≠ some f)
    (hp : ∀ p, k'.fileData n = some p → NewData k k' n p)
    (h0 : k'.fileData n = none → k'.fileSize n = 0) : DataKept k' := by
  have hcase : ∀ m ∈ k'.nodes.used, m = n ∨ (m ∈ k.nodes.used ∧ m ≠ n) := by
    intro m hm
    rw [ho.used] at hm
    by_cases hmn : m = n
    · exact Or.inl hmn
    · exact Or.inr ⟨hm, hmn⟩
  refine ⟨fun m hm g hg => ?_, fun m hm m' hm' g hg hg' => ?_, hz, fun m hm p hmp hoff => ?_,
    fun m hm p hmp => ?_, fun m hm m' hm' p q hmp hmq hoff hb => ?_, fun m hm hmp => ?_⟩
  · obtain rfl | ⟨hu, hne⟩ := hcase m hm
    · rw [hf] at hg
      cases hg
      exact hfu
    · rw [(ho.file m hu hne).1] at hg
      exact ho.record g (h.record m hu g hg)
  · obtain rfl | ⟨hu, hne⟩ := hcase m hm
    · rw [hf] at hg
      cases hg
      by_contra hmm
      obtain rfl | ⟨hu', hne'⟩ := hcase m' hm'
      · exact hmm rfl
      · rw [(ho.file m' hu' hne').1] at hg'
        exact hfo m' hu' hne' hg'
    · rw [(ho.file m hu hne).1] at hg
      obtain rfl | ⟨hu', hne'⟩ := hcase m' hm'
      · rw [hf] at hg'
        cases hg'
        exact absurd hg (hfo m hu hne)
      · rw [(ho.file m' hu' hne').1] at hg'
        exact h.single m hu m' hu' g hg hg'
  · obtain rfl | ⟨hu, hne⟩ := hcase m hm
    · exact (hp p hmp).block hoff
    · rw [(ho.file m hu hne).2.1] at hmp
      rw [(ho.file m hu hne).2.2]
      obtain ⟨h1, h2⟩ := h.block m hu p hmp hoff
      obtain ⟨h3, h4⟩ := ho.block m hu hne p hmp h1
      rw [h4]
      exact ⟨h3, h2⟩
  · obtain rfl | ⟨hu, hne⟩ := hcase m hm
    · exact (hp p hmp).known
    · rw [(ho.file m hu hne).2.1] at hmp
      cases h.known m hu p hmp with
      | inl h1 => exact Or.inl h1
      | inr h1 => exact Or.inr (ho.block m hu hne p hmp h1).1
  · obtain rfl | ⟨hu, hne⟩ := hcase m hm
    · obtain rfl | ⟨hu', hne'⟩ := hcase m' hm'
      · rfl
      · rw [(ho.file m' hu' hne').2.1] at hmq
        exact absurd hb ((hp p hmp).apart m' hu' hne' q hmq (Or.inl hoff))
    · rw [(ho.file m hu hne).2.1] at hmp
      obtain rfl | ⟨hu', hne'⟩ := hcase m' hm'
      · exact absurd hb.symm ((hp q hmq).apart m hu hne p hmp (Or.inr hoff))
      · rw [(ho.file m' hu' hne').2.1] at hmq
        exact h.apart m hu m' hu' p q hmp hmq hoff hb
  · obtain rfl | ⟨hu, hne⟩ := hcase m hm
    · exact h0 hmp
    · rw [(ho.file m hu hne).2.1] at hmp
      rw [(ho.file m hu hne).2.2]
      exact h.empty m hu hmp

theorem withFile_file (k : Kernel) (n f m : Nat) :
    ((k.withFile n f).node m).file = if m = n then some f else (k.node m).file := by
  unfold withFile
  rw [setNode_node]
  split
  · rfl
  · rfl

theorem Others.attach {x : File} (h : DataKept k) (hf : f ∉ k.files.used) :
    Others k ({ k with files := k.files.alloc f x }.withFile n f) n := by
  refine ⟨rfl, fun g hg => Finset.mem_insert_of_mem hg, fun m hm hmn => ?_,
    fun _ _ _ _ _ hb => ⟨hb, rfl⟩⟩
  have hfile : (({ k with files := k.files.alloc f x }.withFile n f).node m).file =
      (k.node m).file := by
    rw [withFile_file, if_neg hmn]
    rfl
  refine ⟨hfile, ?_⟩
  unfold fileData fileSize
  rw [hfile]
  cases hg : (k.node m).file with
  | none => exact ⟨rfl, rfl⟩
  | some g =>
    have hgf : g ≠ f := fun he => hf (he ▸ h.record m hm g hg)
    have hcell : (Arena.alloc k.files f x).cell g = k.files.cell g := Arena.alloc_cell_ne _ _ hgf
    constructor
    · change ((Arena.alloc k.files f x).cell g).privateData = _
      rw [hcell]
      rfl
    · change ((Arena.alloc k.files f x).cell g).size = _
      rw [hcell]
      rfl

theorem DataKept.attach {x : File} (h : DataKept k) (hf : f ∉ k.files.used)
    (hp : ∀ p, x.privateData = some p →
      NewData k ({ k with files := k.files.alloc f x }.withFile n f) n p)
    (h0 : x.privateData = none → x.size = 0) :
    DataKept ({ k with files := k.files.alloc f x }.withFile n f) := by
  have hfile : (({ k with files := k.files.alloc f x }.withFile n f).node n).file = some f := by
    rw [withFile_file, if_pos rfl]
  have hcell : (Arena.alloc k.files f x).cell f = x := Arena.alloc_cell_self ..
  have hdata := fileData_eq hfile
  have hsize := fileSize_eq hfile
  change _ = ((Arena.alloc k.files f x).cell f).privateData at hdata
  change _ = ((Arena.alloc k.files f x).cell f).size at hsize
  rw [hcell] at hdata hsize
  refine h.change (Others.attach h hf) h.zero hfile (Finset.mem_insert_self f _) ?_ ?_ ?_
  · exact fun m hm _ hg => hf (h.record m hm f hg)
  · intro p hmp
    rw [hdata] at hmp
    exact hp p hmp
  · intro hmp
    rw [hdata] at hmp
    rw [hsize]
    exact h0 hmp

/-- The node `n` has a file, `f`, and nothing else has changed for the files. -/
structure Ensured (k k' : Kernel) (n f : Nat) : Prop where
  kept : DataKept k'
  home : AtHome k → AtHome k'
  file : (k'.node n).file = some f
  used : k'.nodes.used = k.nodes.used
  data : ∀ m, m = n ∨ m ∈ k.nodes.used → k'.fileData m = k.fileData m ∧
    k'.fileSize m = k.fileSize m
  blocks : k'.blocks = k.blocks
  blockLen : k'.blockLen = k.blockLen
  freed : k'.freed = k.freed
  procs : k'.procSide = k.procSide

theorem ensureFileStorage_some (h : DataKept k)
    (he : k.ensureFileStorage env n = (some f, k')) : Ensured k k' n f := by
  unfold ensureFileStorage at he
  split at he
  · cases he
  · cases hfile : (k.node n).file with
    | some g =>
      rw [hfile] at he
      cases he
      exact ⟨h, id, hfile, rfl, fun _ _ => ⟨rfl, rfl⟩, rfl, rfl, rfl, rfl⟩
    | none =>
      rw [hfile] at he
      dsimp only at he
      split at he
      · cases he
      · rename_i g k1 hk
        obtain ⟨rfl, hfresh⟩ := kmalloc_eq hk
        cases he
        have h1 : DataKept { k with allocs := k.allocs + 1 } := h.congr rfl rfl rfl rfl
        have hg : f ∉ k.files.used := hfresh f rfl
        have hother : Others { k with allocs := k.allocs + 1 } _ n :=
          Others.attach (x := File.zero) h1 hg
        refine ⟨h1.attach hg (fun _ hp => by cases hp) (fun _ => rfl), fun hh => ?_, ?_, rfl,
          fun m hm => ?_, rfl, rfl, rfl, rfl⟩
        · have h2 : AtHome { k with
              allocs := k.allocs + 1, files := k.files.alloc f File.zero } := hh.of_shape rfl rfl
          exact h2.of_shape (setNode_shape rfl rfl) rfl
        · exact (withFile_file _ n f n).trans (if_pos rfl)
        · by_cases hmn : m = n
          · have hfile' : (({ k with allocs := k.allocs + 1, files := k.files.alloc f File.zero }.withFile
                n f).node n).file = some f := (withFile_file _ n f n).trans (if_pos rfl)
            have hcell : (Arena.alloc k.files f File.zero).cell f = File.zero :=
              Arena.alloc_cell_self ..
            rw [hmn]
            constructor
            · refine (fileData_eq hfile').trans ?_
              change ((Arena.alloc k.files f File.zero).cell f).privateData = _
              rw [hcell]
              unfold fileData
              rw [hfile]
              rfl
            · refine (fileSize_eq hfile').trans ?_
              change ((Arena.alloc k.files f File.zero).cell f).size = _
              rw [hcell]
              unfold fileSize
              rw [hfile]
              rfl
          · exact (hother.file m (hm.resolve_left hmn) hmn).2

theorem ensureFileStorage_none (he : k.ensureFileStorage env n = (none, k')) :
    k' = k ∨ k' = { k with allocs := k.allocs + 1 } := by
  unfold ensureFileStorage at he
  split at he
  · cases he
    exact Or.inl rfl
  · split at he
    · cases he
    · split at he
      · rename_i k1 hk
        cases he
        exact Or.inr (kmalloc_eq hk).1
      · cases he

/-- The file `f` gets a new block `b` with `content` and its old data goes back to the heap. -/
structure Replaced (k k' : Kernel) (f b size len : Nat) (content : Nat → UInt8) : Prop where
  nodes : k'.nodes = k.nodes
  file : ∃ off, k'.files = k.files.set f ⟨size, off, some ⟨b, 0⟩⟩
  fresh : b ∉ insert 0 k.blocks.used
  new : b ∈ k'.blocks.used
  sub : ∀ x ∈ k'.blocks.used, x = b ∨ x ∈ k.blocks.used
  keep : ∀ x ∈ k.blocks.used, (∀ p, (k.files.cell f).privateData = some p → x ≠ p.block) →
    x ∈ k'.blocks.used
  cell : k'.blocks.cell b = content
  cells : ∀ x, x ≠ b → k'.blocks.cell x = k.blocks.cell x
  blockLen : k'.blockLen = Function.update k.blockLen b len
  freed : ((k.files.cell f).privateData = none ∧ k'.freed = k.freed) ∨
    ∃ p, (k.files.cell f).privateData = some p ∧ k'.freed = p :: k.freed
  root : k'.root = k.root
  procs : k'.procSide = k.procSide

section replaced

variable {size len : Nat} {content : Nat → UInt8}

theorem Replaced.node (hr : Replaced k k' f b size len content) (m : Nat) :
    k'.node m = k.node m := by
  unfold Kernel.node
  rw [hr.nodes]

theorem Replaced.data (hr : Replaced k k' f b size len content) (hf : (k.node n).file = some f) :
    k'.fileData n = some ⟨b, 0⟩ ∧ k'.fileSize n = size := by
  obtain ⟨off, hfiles⟩ := hr.file
  have hfile : (k'.node n).file = some f := by
    rw [hr.node]
    exact hf
  have hcell : k'.files.cell f = ⟨size, off, some ⟨b, 0⟩⟩ := by
    rw [hfiles]
    exact Arena.set_cell_self ..
  rw [fileData_eq hfile, fileSize_eq hfile, hcell]
  exact ⟨rfl, rfl⟩

theorem Replaced.others (hr : Replaced k k' f b size len content) (h : DataKept k)
    (hn : n ∈ k.nodes.used) (hf : (k.node n).file = some f) (hm : m ∈ k.nodes.used) (hmn : m ≠ n) :
    k'.fileData m = k.fileData m ∧ k'.fileSize m = k.fileSize m := by
  obtain ⟨off, hfiles⟩ := hr.file
  unfold fileData fileSize
  rw [hr.node]
  cases hg : (k.node m).file with
  | none => exact ⟨rfl, rfl⟩
  | some g =>
    have hne : g ≠ f := fun he => hmn (h.single n hn m hm f hf (he ▸ hg))
    have hsame : k'.files.cell g = k.files.cell g := by
      rw [hfiles]
      exact Arena.set_cell_ne _ _ hne
    constructor
    · change (k'.files.cell g).privateData = _
      rw [hsame]
      rfl
    · change (k'.files.cell g).size = _
      rw [hsame]
      rfl

theorem Replaced.kept (hr : Replaced k k' f b size len content) (h : DataKept k)
    (hn : n ∈ k.nodes.used) (hf : (k.node n).file = some f) (hs : size < len)
    (hown : ∀ p, k.fileData n = some p → p.off = 0) : DataKept k' := by
  obtain ⟨off, hfiles⟩ := hr.file
  obtain ⟨hdata, hsize⟩ := hr.data hf
  have hfile : (k'.node n).file = some f := by
    rw [hr.node]
    exact hf
  have hlen : k'.blockLen b = len := by
    rw [hr.blockLen]
    exact Function.update_self ..
  have hne : ∀ m ∈ k.nodes.used, m ≠ n → (k.node m).file ≠ some f :=
    fun m hm hmn hg => hmn (h.single n hn m hm f hf hg)
  refine h.change (n := n) ⟨by rw [hr.nodes], fun g hg => ?_, fun m hm hmn => ?_,
    fun m hm hmn p hp hb => ?_⟩ (fun h0 => ?_) hfile ?_ hne (fun p hp => ?_) (fun hp => ?_)
  · rw [hfiles]
    exact hg
  · exact ⟨by rw [hr.node], hr.others h hn hf hm hmn⟩
  · refine ⟨hr.keep p.block hb fun q hq he => ?_, ?_⟩
    · have hq' : k.fileData n = some q := (fileData_eq hf).trans hq
      exact hmn (h.apart n hn m hm q p hq' hp (hown q hq') he)
    · rw [hr.blockLen]
      refine Function.update_of_ne (fun he => hr.fresh ?_) _ _
      rw [← he]
      exact Finset.mem_insert_of_mem hb
  · cases hr.sub 0 h0 with
    | inl he => exact hr.fresh (he ▸ Finset.mem_insert_self 0 _)
    | inr he => exact h.zero he
  · rw [hfiles]
    exact h.record n hn f hf
  · rw [hdata] at hp
    cases hp
    refine ⟨fun _ => ⟨hr.new, ?_⟩, Or.inr hr.new, fun m hm _ q hq _ he => hr.fresh ?_⟩
    · rw [hsize, hlen]
      exact hs
    · have hb : q.block = b := he
      rw [← hb]
      exact h.known_mem hm hq
  · rw [hdata] at hp
    cases hp

end replaced

theorem allocBlock_some {len : Nat} (h : k.allocBlock env len = (some b, k')) :
    b ∉ insert 0 k.blocks.used ∧ k' = { k with
      allocs := k.allocs + 1
      blocks := k.blocks.alloc b (env.garbage k.allocs)
      blockLen := Function.update k.blockLen b len } := by
  unfold allocBlock at h
  dsimp only at h
  split at h
  · cases h
  · rename_i c k1 hk
    obtain ⟨rfl, hfresh⟩ := kmalloc_eq hk
    cases h
    exact ⟨hfresh b rfl, rfl⟩

theorem allocBlock_none {len : Nat} (h : k.allocBlock env len = (none, k')) :
    k' = { k with allocs := k.allocs + 1 } := by
  unfold allocBlock at h
  dsimp only at h
  split at h
  · rename_i k1 hk
    cases h
    exact (kmalloc_eq hk).1
  · cases h

/-- What becomes of the blocks when data is given back. -/
theorem freeData_rest (k : Kernel) (f : Nat) : ∃ blocks freed,
    k.freeData f = { k with blocks, freed } ∧ blocks.cell = k.blocks.cell ∧
      (∀ x ∈ blocks.used, x ∈ k.blocks.used) ∧
      (∀ x ∈ k.blocks.used, (∀ p, (k.files.cell f).privateData = some p → x ≠ p.block) →
        x ∈ blocks.used) ∧
      (((k.files.cell f).privateData = none ∧ freed = k.freed) ∨
        ∃ p, (k.files.cell f).privateData = some p ∧ freed = p :: k.freed) := by
  unfold freeData
  cases hp : (k.files.cell f).privateData with
  | none => exact ⟨k.blocks, k.freed, rfl, rfl, fun _ h => h, fun _ h _ => h, Or.inl ⟨rfl, rfl⟩⟩
  | some p =>
    refine ⟨if p.off = 0 then k.blocks.free p.block else k.blocks, p :: k.freed, rfl, ?_, ?_, ?_,
      Or.inr ⟨p, rfl, rfl⟩⟩
    · split
      · rfl
      · rfl
    · intro x hx
      split at hx
      · exact Finset.mem_of_mem_erase hx
      · exact hx
    · intro x hx hne
      split
      · exact Finset.mem_erase.mpr ⟨hne p rfl, hx⟩
      · exact hx

/-- A fresh block is filled, the old data of the file given back and the record set. -/
theorem Replaced.of_alloc (size off : Nat) {len allocs : Nat} {content : Nat → UInt8}
    (hb : b ∉ insert 0 k.blocks.used)
    (hold : ∀ p, (k.files.cell f).privateData = some p → p.block ≠ b) (q : Kernel)
    (hq : q = { k with
      allocs, blocks := k.blocks.alloc b content, blockLen := Function.update k.blockLen b len }) :
    Replaced k { q.freeData f with
      files := (q.freeData f).files.set f ⟨size, off, some ⟨b, 0⟩⟩ } f b size len content := by
  obtain ⟨blocks, freed, hfree, hcell, hsub, hkeep, hfreed⟩ := freeData_rest q f
  rw [hfree]
  have hdata : (q.files.cell f).privateData = (k.files.cell f).privateData := by rw [hq]
  rw [hdata] at hkeep hfreed
  subst hq
  refine ⟨rfl, ⟨off, rfl⟩, hb, ?_, fun x hx => ?_, fun x hx hne => ?_, ?_, fun x hx => ?_, rfl,
    hfreed, rfl, rfl⟩
  · exact hkeep b (Finset.mem_insert_self b _) fun p hp he => hold p hp he.symm
  · exact Finset.mem_insert.mp (hsub x hx)
  · exact hkeep x (Finset.mem_insert_of_mem hx) hne
  · change blocks.cell b = _
    rw [hcell]
    exact Arena.alloc_cell_self ..
  · change blocks.cell x = _
    rw [hcell]
    exact Arena.alloc_cell_ne _ _ hx

def laid (old : Nat → UInt8) (off : Nat) (bytes : List UInt8) (x : Nat) : UInt8 :=
  if off ≤ x ∧ x < off + bytes.length then bytes.getD (x - off) 0 else old x

theorem copyTo_alloc {allocs len : Nat} {old : Nat → UInt8} (hk : k1 = { k with
      allocs, blocks := k.blocks.alloc b old, blockLen := Function.update k.blockLen b len })
    (bytes : List UInt8) : k1.copyTo ⟨b, 0⟩ bytes = { k with
      allocs, blocks := k.blocks.alloc b (laid old 0 bytes)
      blockLen := Function.update k.blockLen b len } := by
  subst hk
  unfold copyTo laid
  dsimp only
  rw [Arena.alloc_set, Arena.alloc_cell_self]

theorem setContent_cases {data : List UInt8} {r : Bool} (h : DataKept k) (hn : n ∈ k.nodes.used)
    (hs : k.setContent env n data = (r, k')) :
    k.ensureFileStorage env n = (none, k') ∨ ∃ f k1, k.ensureFileStorage env n = (some f, k1) ∧
      (k' = { k1 with allocs := k1.allocs + 1 } ∨
        ∃ b content, Replaced k1 k' f b data.length (data.length + 1) content) := by
  unfold setContent at hs
  split at hs
  · rename_i k1 hk
    cases hs
    exact Or.inl hk
  · rename_i f k1 hk
    refine Or.inr ⟨f, k1, hk, ?_⟩
    split at hs
    · rename_i k2 hb
      cases hs
      exact Or.inl (allocBlock_none hb)
    · rename_i b k2 hb
      obtain ⟨hfresh, hk2⟩ := allocBlock_some hb
      have hens := ensureFileStorage_some h hk
      cases hs
      have hold : ∀ p, (k1.files.cell f).privateData = some p → p.block ≠ b := by
        intro p hp he
        rw [hens.used.symm] at hn
        rw [← he] at hfresh
        exact hfresh (hens.kept.known_mem hn ((fileData_eq hens.file).trans hp))
      exact Or.inr ⟨b, _, Replaced.of_alloc _ _ hfresh hold _ (copyTo_alloc hk2 (data ++ [0]))⟩

theorem freeData_some {p : Ptr} (hp : (k.files.cell f).privateData = some p) :
    k.freeData f = k.kfreeData p := by
  unfold freeData
  rw [hp]

theorem growFile_cases {size : Nat} (h : DataKept k) (hn : n ∈ k.nodes.used)
    (hf : (k.node n).file = some f) (hg : k.growFile env f size = some k') :
    (size ≤ k.fileSize n ∧ k' = k) ∨ (k.fileSize n < size ∧ ∃ b content,
      Replaced k k' f b size (size + 1) content ∧
        ∀ p, k.fileData n = some p → ∀ i < k.fileSize n,
          content i = k.blocks.cell p.block (p.off + i)) := by
  rw [fileSize_eq hf, fileData_eq hf]
  unfold growFile at hg
  dsimp only at hg
  split at hg
  · rename_i hlt
    split at hg
    · cases hg
    · rename_i b k2 hb
      obtain ⟨hfresh, hk2⟩ := allocBlock_some hb
      have hold : ∀ p, (k.files.cell f).privateData = some p → p.block ≠ b := by
        intro p hp he
        rw [← he] at hfresh
        exact hfresh (h.known_mem hn ((fileData_eq hf).trans hp))
      have hfiles : k2.files = k.files := by rw [hk2]
      refine Or.inr ⟨hlt, b, ?_⟩
      cases hp : (k.files.cell f).privateData with
      | none =>
        rw [hp] at hg
        cases hg
        have hfree : k2.freeData f = k2 := by
          unfold freeData
          rw [hfiles, hp]
        have hr := Replaced.of_alloc size (k.files.cell f).offset hfresh hold k2 hk2
        rw [hfree] at hr
        exact ⟨_, hr, fun _ h => by cases h⟩
      | some p =>
        rw [hp] at hg
        cases hg
        have hfree : (k2.copyTo ⟨b, 0⟩ (k2.bytesAt p (k.files.cell f).size)).freeData f =
            (k2.copyTo ⟨b, 0⟩ (k2.bytesAt p (k.files.cell f).size)).kfreeData p := by
          have hprivate : (k2.files.cell f).privateData = some p := by rw [hfiles, hp]
          exact freeData_some hprivate
        have hr := Replaced.of_alloc size (k.files.cell f).offset hfresh hold _
          (copyTo_alloc hk2 (k2.bytesAt p (k.files.cell f).size))
        rw [hfree] at hr
        refine ⟨_, hr, fun q hq i hi => ?_⟩
        cases hq
        have hcell : k2.blocks.cell p.block = k.blocks.cell p.block := by
          rw [hk2]
          exact Arena.alloc_cell_ne _ _ (hold p hp)
        unfold laid bytesAt
        rw [hcell]
        simp [hi]
  · cases hg
    exact Or.inl ⟨by omega, rfl⟩

end data

end LosTacOS.Os.Kernel
