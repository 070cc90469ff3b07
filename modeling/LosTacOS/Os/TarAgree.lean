import LosTacOS.Os.TarRanges
import LosTacOS.Os.TarTree

/-! The two indexes of one archive: the table that `build_index` fills and the tree that `mount_vfs`
makes. The table takes the name where it starts and knows no prefix; of two entries of one path it
finds the first, the tree the last. -/
namespace LosTacOS.Os.Archive

open Kernel

section statement

variable (a : Archive) (env : Env) (block : Nat)

def find (entries : List TarEntry) (name : List Char) : Option TarEntry :=
  entries.find? fun e => e.name = name

def fullPath (p : UInt64) : List Char :=
  let name := field (a.bytes p) 0 100
  if a.bytes p 345 = 0 then name else field (a.bytes p) 345 155 ++ '/' :: name

def nameText (p : UInt64) : List Char := field (a.bytes p) 0 255

def names (p : UInt64) : List (List Char) := components (headerPath (a.bytes p) 0)

def IsFile (p : UInt64) : Prop := a.typeflag p = 48 ∨ a.typeflag p = 0

def IsLink (p : UInt64) : Prop := a.typeflag p = 50

instance (p : UInt64) : Decidable (a.IsFile p) := inferInstanceAs (Decidable (_ ∨ _))

instance (p : UInt64) : Decidable (a.IsLink p) := inferInstanceAs (Decidable (_ = _))

/-- The headers from a place on, with their data in the image, up to its end or a block of zeros. -/
inductive Headers : UInt64 → List UInt64 → Prop
  | stop {p : UInt64} (h : p = a.stop ∨
      (p < a.stop ∧ a.Inside p.toNat 512 ∧ emptyBlock (a.bytes p) 0 = true)) : Headers p []
  | entry {p : UInt64} {ps : List UInt64} (hp : a.IsHeader p.toNat)
      (hin : a.Inside p.toNat (512 + ((a.sizeAt p).toNat + 511) / 512 * 512))
      (rest : Headers (p + step (a.sizeAt p)) ps) : Headers p (p :: ps)

/-- A file has names that are neither empty nor dots, and there is no link at its path and neither a
file nor a link above it. -/
structure Tidy (ps : List UInt64) : Prop where
  plain : ∀ p ∈ ps, a.IsFile p → a.names p ≠ [] ∧ ∀ s ∈ a.names p, Plain s
  above : ∀ p ∈ ps, a.IsFile p → ∀ q ∈ ps, a.IsFile q ∨ a.IsLink q → a.names q <+: a.names p →
    a.IsFile q ∧ a.names q = a.names p

structure WellFormed (ps : List UInt64) : Prop extends a.Tidy ps where
  loaded : a.tarStart ≠ 0
  headers : a.Headers a.tarStart ps
  count : ps.length ≤ maxTarFiles

def SameFile (entries : List TarEntry) (k : Kernel) (path : List Char) : Prop :=
  ∃ e n q off, find entries path = some e ∧ k.find env path = some (some n, q) ∧
    q.fileData n = some ⟨block, off⟩ ∧ e.data = a.tarStart + UInt64.ofNat off ∧
    e.size.toNat = q.fileSize n

def ToldApart (ps : List UInt64) (p : UInt64) : Prop :=
  ∃ qs l rs, ps = qs ++ l :: rs ∧ a.IsFile l ∧ a.names l = a.names p ∧
    (∀ r ∈ rs, a.IsFile r → a.names r ≠ a.names p) ∧ a.nameText l = a.fullPath p ∧
    ∀ q ∈ qs, a.nameText q ≠ a.fullPath p

end statement

section paths

variable {a : Archive} {p : UInt64}

theorem components_dropSlash (path : List Char) : components (dropSlash path) = components path := by
  unfold dropSlash
  split
  · rename_i hlast
    obtain ⟨init, rfl⟩ := List.getLast?_eq_some_iff.mp hlast
    rw [List.dropLast_concat, components_splitOn, components_splitOn,
      List.splitOn_append_cons_self, List.splitOn_nil, List.map_append, List.filter_append]
    exact (List.append_nil _).symm
  · rfl

/-- A leading `./` adds a dot that `find` skips. -/
theorem components_normalize (path : List Char) :
    (components (normalize path)).filter (· ≠ ['.']) = (components path).filter (· ≠ ['.']) := by
  unfold normalize
  split
  · rename_i rest
    have hsplit : ('.' :: '/' :: rest).splitOn '/' = ['.'] :: rest.splitOn '/' :=
      List.splitOn_append_cons_self ['.'] _
    rw [components_splitOn ('.' :: '/' :: rest), hsplit, components_splitOn]
    rfl
  · rfl

theorem headerPath_eq (p : UInt64) :
    headerPath (a.bytes p) 0 = dropSlash (normalize (a.fullPath p)) := by
  unfold headerPath fullPath
  rw [Nat.zero_add]

/-- The path leads `find` along the names of the tree. -/
theorem fullPath_names (h : ∀ s ∈ a.names p, Plain s) :
    (components (a.fullPath p)).filter (· ≠ ['.']) = a.names p := by
  have hkeep : (a.names p).filter (· ≠ ['.']) = a.names p :=
    List.filter_eq_self.mpr fun s hs => decide_eq_true (h s hs).2.1
  rw [← hkeep]
  unfold names
  rw [headerPath_eq, components_dropSlash]
  exact (components_normalize _).symm

theorem fullPath_ne (h : a.names p ≠ []) : a.fullPath p ≠ [] := by
  intro hnil
  apply h
  unfold names
  rw [headerPath_eq, hnil]
  rfl

theorem regular_of_names (hf : a.IsFile p) (h : a.names p ≠ []) : a.Regular p := by
  refine ⟨hf, fun hnil => h ?_⟩
  unfold names
  rw [hnil]
  rfl

end paths

section tree

variable {a : Archive} {env : Env} {block n : Nat} {p : UInt64} {ps : List UInt64}
  {k k' k1 : Kernel} {r : Option Nat}

def HasData (a : Archive) (block : Nat) (l : UInt64) (k : Kernel) (n : Nat) : Prop :=
  k.fileData n = some ⟨block, (l - a.tarStart).toNat + 512⟩ ∧ k.fileSize n = (a.sizeAt l).toNat

/-- The tree after some headers. `r` is a node that was made for the next header and is not yet what
it is to be. -/
structure Mounted (a : Archive) (block : Nat) (ps : List UInt64) (r : Option Nat) (k : Kernel) :
    Prop where
  load : Loading block k
  file : ∀ qs l rs, ps = qs ++ l :: rs → a.IsFile l →
    (∀ r ∈ rs, a.IsFile r → a.names r ≠ a.names l) →
    ∃ n, k.down (a.names l) k.root = some n ∧ a.HasData block l k n
  leaf : ∀ m, k.Linked m → (k.node m).directory = false →
    (∃ q ∈ ps, (a.IsFile q ∨ a.IsLink q) ∧ k.down (a.names q) k.root = some m) ∨ r = some m
  link : ∀ m, k.Linked m → (k.node m).type = .symlink →
    ∃ q ∈ ps, a.IsLink q ∧ k.down (a.names q) k.root = some m

theorem Mounted.rooted (h : Mounted a block ps r k) : Rooted k := h.load.home.toRooted

theorem Mounted.start (hb : Booted block k) : Mounted a block [] none k where
  load := .start hb.nodes hb.root hb.home hb.heap hb.image
  file qs l rs he := absurd he (by simp)
  leaf m _ hm := by
    unfold node at hm
    rw [hb.nodes] at hm
    cases hm
  link m _ hm := by
    unfold node at hm
    rw [hb.nodes] at hm
    cases hm

/-- Nodes that are made for the next header leave what the tree has. -/
theorem Mounted.grow (h : Mounted a block ps none k) (hl : Loading block k') (he : Enlarges k k')
    (hs : Sprouts k r k') (hf : k'.files = k.files) : Mounted a block ps r k' := by
  have hdown : ∀ {vs m}, k.down vs k.root = some m → k'.down vs k'.root = some m := by
    intro vs m hm
    rw [he.root]
    exact he.down_kept .refl hm
  refine ⟨hl, fun qs l rs hps hfile hrs => ?_, fun m hm hleaf => ?_, fun m hm hlink => ?_⟩
  · obtain ⟨n, hn, hdata, hsize⟩ := h.file qs l rs hps hfile hrs
    have hkeep := hs.file n (down_linked .refl hn)
    refine ⟨n, hdown hn, ?_, ?_⟩
    · unfold fileData
      rw [hkeep, hf]
      exact hdata
    · unfold fileSize
      rw [hkeep, hf]
      exact hsize
  · cases hs.leaf m hm hleaf with
    | inr hr => exact Or.inr hr
    | inl hold =>
      rw [hs.old m hold] at hleaf
      obtain ⟨q, hq, hkind, hd⟩ := (h.leaf m hold hleaf).resolve_right nofun
      exact Or.inl ⟨q, hq, hkind, hdown hd⟩
  · by_cases hold : k.Linked m
    · rw [he.type hold] at hlink
      obtain ⟨q, hq, hkind, hd⟩ := h.link m hold hlink
      exact ⟨q, hq, hkind, hdown hd⟩
    · exact absurd hlink (he.new hm hold)

theorem decompose {qs rs : List UInt64} {l : UInt64} (h : ps ++ [p] = qs ++ l :: rs) :
    (rs = [] ∧ l = p ∧ qs = ps) ∨ ∃ ws, rs = ws ++ [p] ∧ ps = qs ++ l :: ws := by
  cases List.eq_nil_or_concat rs with
  | inl hnil =>
    rw [hnil] at h
    obtain ⟨h1, h2⟩ := List.append_inj' h rfl
    cases h2
    exact Or.inl ⟨hnil, rfl, h1.symm⟩
  | inr hr =>
    obtain ⟨ws, x, rfl⟩ := hr
    rw [List.concat_eq_append, ← List.cons_append, ← List.append_assoc] at h
    obtain ⟨h1, h2⟩ := List.append_inj' h rfl
    cases h2
    exact Or.inr ⟨ws, List.concat_eq_append, h1⟩

/-- A header that is not one of a file or a link is done with. -/
theorem Mounted.skip (h : Mounted a block ps none k) (hp : ¬ a.IsFile p) :
    Mounted a block (ps ++ [p]) none k := by
  refine ⟨h.load, fun qs l rs he hfile hrs => ?_, fun m hm hleaf => ?_, fun m hm hlink => ?_⟩
  · rcases decompose he with ⟨-, rfl, -⟩ | ⟨ws, rfl, hps⟩
    · exact absurd hfile hp
    · exact h.file qs l ws hps hfile fun r hr => hrs r (List.mem_append_left _ hr)
  · obtain ⟨q, hq, hkind, hd⟩ := (h.leaf m hm hleaf).resolve_right nofun
    exact Or.inl ⟨q, List.mem_append_left _ hq, hkind, hd⟩
  · obtain ⟨q, hq, hkind, hd⟩ := h.link m hm hlink
    exact ⟨q, List.mem_append_left _ hq, hkind, hd⟩

theorem down_congr (h : ∀ m, (k'.node m).children = (k.node m).children ∧
    (k'.node m).name = (k.node m).name) (vs : List (List Char)) (d : Nat) :
    k'.down vs d = k.down vs d := by
  have hfind : ∀ d s, k'.findIn d s = k.findIn d s := by
    intro d s
    unfold findIn
    rw [(h d).1]
    congr 1
    funext c
    rw [(h c).2]
  induction vs generalizing d with
  | nil => rfl
  | cons s vs ih =>
    rw [down, down, hfind]
    congr 1
    funext c
    exact ih c

theorem Mounted.linked {target : List Char} (h : Mounted a block ps (some n) k) (hp : a.IsLink p)
    (hn : k.down (a.names p) k.root = some n)
    (hl : Loading block (k.setNode n { k.node n with type := .symlink, symlink := target })) :
    Mounted a block (ps ++ [p]) none
      (k.setNode n { k.node n with type := .symlink, symlink := target }) := by
  generalize hk' : k.setNode n { k.node n with type := .symlink, symlink := target } = k' at hl
  have hnode : ∀ m, (k'.node m).children = (k.node m).children ∧
      (k'.node m).name = (k.node m).name ∧ (k'.node m).file = (k.node m).file ∧
      (k'.node m).directory = (k.node m).directory ∧
      (m ≠ n → (k'.node m).type = (k.node m).type) := by
    intro m
    rw [← hk', setNode_node]
    split
    · rename_i hm
      rw [hm]
      exact ⟨rfl, rfl, rfl, rfl, fun hne => absurd rfl hne⟩
    · exact ⟨rfl, rfl, rfl, rfl, fun _ => rfl⟩
  have hfiles : k'.files = k.files := by rw [← hk']; rfl
  have hroot : k'.root = k.root := by rw [← hk']; rfl
  have hdown : ∀ vs d, k'.down vs d = k.down vs d :=
    down_congr fun m => ⟨(hnode m).1, (hnode m).2.1⟩
  have hlinked : ∀ {m}, k'.Linked m → k.Linked m := by
    intro m hm
    unfold Linked at hm ⊢
    rw [hroot] at hm
    exact Under.mono hm fun d _ c hc => (hnode d).1 ▸ hc
  have hlink : ¬ a.IsFile p := by
    unfold IsFile
    rw [hp]
    decide
  refine ⟨hl, fun qs l rs he hfile hrs => ?_, fun m hm hleaf => ?_, fun m hm ht => ?_⟩
  · rcases decompose he with ⟨-, rfl, -⟩ | ⟨ws, rfl, hps⟩
    · exact absurd hfile hlink
    · obtain ⟨x, hx, hdata, hsize⟩ :=
        h.file qs l ws hps hfile fun r hr => hrs r (List.mem_append_left _ hr)
      refine ⟨x, ?_, ?_, ?_⟩
      · rw [hdown, hroot]
        exact hx
      · unfold fileData
        rw [(hnode x).2.2.1, hfiles]
        exact hdata
      · unfold fileSize
        rw [(hnode x).2.2.1, hfiles]
        exact hsize
  · rw [(hnode m).2.2.2.1] at hleaf
    simp only [hdown, hroot]
    rcases h.leaf m (hlinked hm) hleaf with ⟨q, hq, hkind, hd⟩ | he
    · exact Or.inl ⟨q, List.mem_append_left _ hq, hkind, hd⟩
    · cases he
      exact Or.inl ⟨p, List.mem_append_right _ List.mem_cons_self, Or.inr hp, hn⟩
  · simp only [hdown, hroot]
    by_cases hmn : m = n
    · rw [hmn]
      exact ⟨p, List.mem_append_right _ List.mem_cons_self, hp, hn⟩
    · rw [(hnode m).2.2.2.2 hmn] at ht
      obtain ⟨q, hq, hkind, hd⟩ := h.link m (hlinked hm) ht
      exact ⟨q, List.mem_append_left _ hq, hkind, hd⟩

theorem Mounted.attached (h : Mounted a block ps (some n) k) (hp : a.IsFile p)
    (hn : k.down (a.names p) k.root = some n)
    (ha : k.attachFile env n ⟨block, (p - a.tarStart).toNat + 512⟩ (a.sizeAt p).toNat = some k') :
    Mounted a block (ps ++ [p]) none k' := by
  obtain ⟨hdata, hsize, -, hold⟩ := attachFile_data h.load.data ha
  have hload := (h.load.attachFile (Nat.succ_ne_zero _) ha).1
  have hnode : ∀ m, (k'.node m).children = (k.node m).children ∧
      (k'.node m).name = (k.node m).name ∧ (k'.node m).directory = (k.node m).directory ∧
      (k'.node m).type = (k.node m).type := by
    intro m
    unfold Kernel.attachFile at ha
    split at ha
    · cases ha
    · rename_i f k1 hk
      obtain ⟨rfl, -⟩ := kmalloc_eq hk
      cases ha
      rw [setNode_node]
      split
      · rename_i hm
        rw [hm]
        exact ⟨rfl, rfl, rfl, rfl⟩
      · exact ⟨rfl, rfl, rfl, rfl⟩
  have hroot : k'.root = k.root := by
    unfold Kernel.attachFile at ha
    split at ha
    · cases ha
    · rename_i f k1 hk
      obtain ⟨rfl, -⟩ := kmalloc_eq hk
      cases ha
      rfl
  have hdown : ∀ vs d, k'.down vs d = k.down vs d :=
    down_congr fun m => ⟨(hnode m).1, (hnode m).2.1⟩
  have hlinked : ∀ {m}, k'.Linked m → k.Linked m := by
    intro m hm
    unfold Linked at hm ⊢
    rw [hroot] at hm
    exact Under.mono hm fun d _ c hc => (hnode d).1 ▸ hc
  refine ⟨hload, fun qs l rs he hfile hrs => ?_, fun m hm hleaf => ?_, fun m hm ht => ?_⟩
  · rcases decompose he with ⟨-, rfl, -⟩ | ⟨ws, rfl, hps⟩
    · refine ⟨n, ?_, hdata, hsize⟩
      rw [hdown, hroot]
      exact hn
    · obtain ⟨x, hx, hxdata, hxsize⟩ :=
        h.file qs l ws hps hfile fun r hr => hrs r (List.mem_append_left _ hr)
      -- another path, so another node
      have hxn : x ≠ n := by
        intro hxn
        rw [hxn] at hx
        exact hrs p (List.mem_append_right _ List.mem_cons_self) hp (h.rooted.down_inj hn hx)
      obtain ⟨h1, h2⟩ := hold x (h.rooted.used (down_linked .refl hx)) hxn
      refine ⟨x, ?_, h1.trans hxdata, h2.trans hxsize⟩
      rw [hdown, hroot]
      exact hx
  · rw [(hnode m).2.2.1] at hleaf
    simp only [hdown, hroot]
    rcases h.leaf m (hlinked hm) hleaf with ⟨q, hq, hkind, hd⟩ | he
    · exact Or.inl ⟨q, List.mem_append_left _ hq, hkind, hd⟩
    · cases he
      exact Or.inl ⟨p, List.mem_append_right _ List.mem_cons_self, Or.inl hp, hn⟩
  · simp only [hdown, hroot]
    rw [(hnode m).2.2.2] at ht
    obtain ⟨q, hq, hkind, hd⟩ := h.link m (hlinked hm) ht
    exact ⟨q, List.mem_append_left _ hq, hkind, hd⟩

theorem startDir_home (hh : AtHome k) (path : List Char) : k.startDir path = k.root := by
  unfold Kernel.startDir
  rw [hh.home, ite_self]

/-- What `create_file_path` does for a header. -/
theorem Mounted.created (h : Mounted a block ps none k)
    (hc : k.createFilePath env (headerPath (a.bytes p) 0) = some (r, k1)) :
    Mounted a block ps r k1 ∧
      (∀ n, r = some n → k1.down (a.names p) k1.root = some n) ∧
      (r = none → a.names p = [] ∨ ∃ us vs n, a.names p = us ++ vs ∧ us ≠ [] ∧ vs ≠ [] ∧
        k.down us k.root = some n ∧ (k.node n).directory = false) := by
  have T : NodeRule env AtHome Quiet Linked (fun _ _ _ => True) := home_nodes
  obtain ⟨hh, hq, -⟩ := T.createFilePath h.load.home hc
  have hload := h.load.quiet hh hq.toSameData
  unfold Kernel.createFilePath at hc
  split at hc
  · rename_i hnil
    cases hc
    refine ⟨h, nofun, fun _ => Or.inl ?_⟩
    unfold names
    rw [hnil]
    rfl
  · rw [startDir_home h.load.home] at hc
    have hrun := createFileIn_creates hc
    have hgrow := h.grow hload (hrun.enlarges h.rooted .refl) (hrun.sprouts h.rooted .refl)
      hq.toSameData.files
    refine ⟨hgrow, fun n hn => ?_, fun hnone => ?_⟩
    · rw [hn] at hc
      have hleads := createFileIn_leads h.rooted .refl hc
      rw [hleads.root]
      exact hleads.down
    · rw [hnone] at hrun
      by_cases hne : a.names p = []
      · exact Or.inl hne
      · exact Or.inr (hrun.blocked_at h.rooted .refl hne)

theorem Mounted.step (h : Mounted a block ps none k) (ht : a.Tidy (ps ++ [p]))
    (he : Entered a env block p k k') : Mounted a block (ps ++ [p]) none k' := by
  have T : NodeRule env AtHome Quiet Linked (fun _ _ _ => True) := home_nodes
  have hmem : p ∈ ps ++ [p] := List.mem_append_right _ List.mem_cons_self
  cases he with
  | other h2 hreg =>
    exact h.skip fun hp => hreg (regular_of_names hp (ht.plain p hmem hp).1)
  | @link r k' h2 hc =>
    have hp : ¬ a.IsFile p := by
      unfold IsFile
      rw [h2]
      decide
    obtain ⟨hh, hq⟩ := T.createSymlinkPath h.load.home hc
    have hload := h.load.quiet hh hq.toSameData
    obtain ⟨⟨r1, k1⟩, h1, hc⟩ := Option.bind_eq_some_iff.mp hc
    obtain ⟨hm, hdown, -⟩ := h.created h1
    cases r1 with
    | none =>
      cases hc
      exact hm.skip hp
    | some n =>
      obtain ⟨-, hc⟩ := Option.ite_none_right_eq_some.mp hc
      cases hc
      exact hm.linked h2 (hdown n rfl) hload
  | @dir r k' h5 hc =>
    have hp : ¬ a.IsFile p := by
      unfold IsFile
      rw [h5]
      decide
    obtain ⟨hh, hq, -⟩ := T.createDirPath h.load.home hc
    have hload := h.load.quiet hh hq.toSameData
    unfold Kernel.createDirPath at hc
    split at hc
    · cases hc
      exact h.skip hp
    · obtain ⟨⟨n, k1⟩, h1, hc⟩ := Option.bind_eq_some_iff.mp hc
      cases hc
      rw [startDir_home h.load.home] at h1
      exact (h.grow hload (createDirIn_leads h.rooted .refl h1).toEnlarges
        (createDirIn_sprouts h.rooted .refl h1) hq.toSameData.files).skip hp
  | blocked hreg hc =>
    -- what stands in the way is a file or a link above the file
    have hplain := ht.plain p hmem hreg.1
    obtain ⟨us, vs, n, hnames, -, hvs, hn, hleaf⟩ :=
      ((h.created hc).2.2 rfl).resolve_left hplain.1
    obtain ⟨q, hq, hkind, hd⟩ := (h.leaf n (down_linked .refl hn) hleaf).resolve_right nofun
    have hus := h.rooted.down_inj hd hn
    have habove := ht.above p hmem hreg.1 q (List.mem_append_left _ hq) hkind
      (by rw [hus, hnames]; exact List.prefix_append us vs)
    rw [hus, hnames] at habove
    exact absurd (List.append_right_eq_self.mp habove.2.symm) hvs
  | @file n k1 k' hreg hc ha =>
    obtain ⟨hm, hdown, -⟩ := h.created hc
    exact hm.attached hreg.1 (hdown n rfl) ha

theorem Tidy.front {qs : List UInt64} (h : a.Tidy (ps ++ qs)) : a.Tidy ps where
  plain p hp := h.plain p (List.mem_append_left _ hp)
  above p hp hf q hq := h.above p (List.mem_append_left _ hp) hf q (List.mem_append_left _ hq)

theorem not_isHeader {q : UInt64} (h : q = a.stop ∨
    (q < a.stop ∧ a.Inside q.toNat 512 ∧ emptyBlock (a.bytes q) 0 = true)) :
    ¬ a.IsHeader q.toNat := by
  rw [isHeader_ptr]
  rcases h with he | ⟨-, -, hempty⟩
  · rw [he]
    exact fun hc => UInt64.lt_irrefl _ hc.1
  · rw [hempty]
    exact fun hc => absurd hc.2 (by decide)

theorem Mounted.run {q : UInt64} {qs : List UInt64} (hq : a.Headers q qs)
    (h : Mounted a block ps none k) (ht : a.Tidy (ps ++ qs))
    (hr : Turn.Returns (a.mountLoop env block) (q, k) (some k')) :
    Mounted a block (ps ++ qs) none k' := by
  induction hq generalizing ps k with
  | @stop q hend =>
    cases hr.unique (Turn.returns_done (walk_end (not_isHeader hend)))
    rw [List.append_nil]
    exact h
  | @entry q qs hp hin rest ih =>
    cases hm : k.mountEntry env (a.bytes a.tarStart) block (q - a.tarStart).toNat with
    | none =>
      cases hr.unique (Turn.returns_done (walk_fault hp hm))
    | some k1 =>
      have hagain : Turn.Hop (a.mountLoop env block) (q, k) (q + Archive.step (a.sizeAt q), k1) :=
        walk_hop_iff.mpr ⟨hp, k1, hm, rfl⟩
      rw [List.append_cons] at ht ⊢
      exact ih (h.step ht.front (mountEntry_entered hm)) ht ((Turn.returns_again hagain).mp hr)

end tree

section index

variable {a : Archive} {ps qs : List UInt64} {p q : UInt64} {entries : List TarEntry}

/-- `build_index` notes all headers as long as there are entries left. -/
theorem index_run (es : List TarEntry) (h : a.Headers q qs)
    (hroom : es.length + qs.length ≤ maxTarFiles) :
    Turn.Returns a.buildIndex (q, es) (some (es ++ qs.map a.indexEntry)) := by
  induction h generalizing es with
  | @stop q hend =>
    rw [List.map_nil, List.append_nil]
    exact Turn.returns_done (walk_end (not_isHeader hend))
  | @entry q qs hp hin rest ih =>
    rw [List.length_cons] at hroom
    have hagain : Turn.Hop a.buildIndex (q, es)
        (q + step (a.sizeAt q), es ++ [a.indexEntry q]) := by
      refine walk_hop_iff.mpr ⟨hp, _, rfl, ?_⟩
      rw [if_pos (by omega)]
    have hnext := @ih (es ++ [a.indexEntry q]) (by
      rw [List.length_append, List.length_singleton]
      omega)
    rw [List.append_assoc] at hnext
    rw [Turn.returns_again hagain]
    exact hnext

theorem sorted (h : a.Headers q qs) : (∀ p ∈ qs, q.toNat ≤ p.toNat) ∧
    qs.Pairwise fun p p' => p.toNat < p'.toNat := by
  induction h with
  | stop => exact ⟨nofun, .nil⟩
  | @entry q qs hp hin rest ih =>
    have hroom := room (UInt64.le_iff_toNat_le.mpr hin.1) (isHeader_ptr.mp hp).1
    have hend := hin.2
    have hspan : span (a.sizeAt q) = 512 + ((a.sizeAt q).toNat + 511) / 512 * 512 := by
      unfold span
      rw [if_pos (by omega)]
    have hnext : (q + step (a.sizeAt q)).toNat = q.toNat + span (a.sizeAt q) :=
      toNat_step (by omega)
    have hlt : ∀ p ∈ qs, q.toNat < p.toNat := by
      intro p hm
      have := ih.1 p hm
      omega
    refine ⟨fun p hm => ?_, List.Pairwise.cons hlt ih.2⟩
    rcases List.mem_cons.mp hm with rfl | hm
    · exact Nat.le_refl _
    · exact Nat.le_of_lt (hlt p hm)

theorem find_map (path : List Char) : find (ps.map a.indexEntry) path =
    (ps.find? fun q => a.nameText q = path).map a.indexEntry := by
  unfold find
  rw [List.find?_map]
  rfl

def lastFile (a : Archive) (ps : List UInt64) (p : UInt64) : Option UInt64 :=
  ps.reverse.find? fun q => a.IsFile q ∧ a.names q = a.names p

theorem lastFile_iff {l : UInt64} : a.lastFile ps p = some l ↔
    ∃ qs rs, ps = qs ++ l :: rs ∧ a.IsFile l ∧ a.names l = a.names p ∧
      ∀ r ∈ rs, a.IsFile r → a.names r ≠ a.names p := by
  unfold lastFile
  rw [List.find?_eq_some_iff_append]
  constructor
  · rintro ⟨hl, rs, qs, he, hrs⟩
    obtain ⟨hfile, hnames⟩ := of_decide_eq_true hl
    refine ⟨qs.reverse, rs.reverse, ?_, hfile, hnames, fun r hr hf hn => ?_⟩
    · rw [← List.reverse_reverse ps, he, List.reverse_append, List.reverse_cons, List.append_assoc]
      rfl
    · have := hrs r (List.mem_reverse.mp hr)
      rw [decide_eq_true (show _ ∧ _ from ⟨hf, hn⟩)] at this
      cases this
  · rintro ⟨qs, rs, rfl, hfile, hnames, hrs⟩
    refine ⟨decide_eq_true ⟨hfile, hnames⟩, rs.reverse, qs.reverse, ?_, fun r hr => ?_⟩
    · rw [List.reverse_append, List.reverse_cons, List.append_assoc]
      rfl
    · rw [decide_eq_false fun hc => hrs r (List.mem_reverse.mp hr) hc.1 hc.2]
      rfl

theorem toldApart_iff {l : UInt64} (hs : ps.Pairwise fun p p' => p.toNat < p'.toNat)
    (hl : a.lastFile ps p = some l) :
    a.ToldApart ps p ↔ (ps.find? fun q => a.nameText q = a.fullPath p) = some l := by
  rw [List.find?_eq_some_iff_append]
  constructor
  · rintro ⟨qs, l', rs, he, hfile, hnames, hrs, htext, hqs⟩
    have hl' := lastFile_iff.mpr ⟨qs, rs, he, hfile, hnames, hrs⟩
    rw [hl] at hl'
    cases hl'
    exact ⟨decide_eq_true htext, qs, rs, he, fun q hq => by simpa using hqs q hq⟩
  · rintro ⟨htext, us, vs, he, hus⟩
    obtain ⟨qs, rs, he', hfile, hnames, hrs⟩ := lastFile_iff.mp hl
    refine ⟨qs, l, rs, he', hfile, hnames, hrs, of_decide_eq_true htext, fun q hq => ?_⟩
    have hlt : q.toNat < l.toNat := by
      rw [he'] at hs
      exact (List.pairwise_append.mp hs).2.2 q hq l List.mem_cons_self
    have hmem : q ∈ us ++ l :: vs := by
      rw [← he, he']
      exact List.mem_append_left _ hq
    rcases List.mem_append.mp hmem with hu | hv
    · simpa using hus q hu
    · rcases List.mem_cons.mp hv with rfl | hv
      · exact absurd hlt (Nat.lt_irrefl _)
      · rw [he] at hs
        have := (List.pairwise_cons.mp (List.pairwise_append.mp hs).2.1).1 q hv
        omega

end index

section agreement

variable {a : Archive} {env : Env} {block : Nat} {p : UInt64} {ps : List UInt64} {k : Kernel}

theorem not_link (hp : a.IsFile p) : ¬ a.IsLink p := by
  intro hl
  unfold IsFile at hp
  unfold IsLink at hl
  rw [hl] at hp
  exact absurd hp (by decide)

/-- `find` comes to the node of the last file at the path of a file. -/
theorem Mounted.find (h : Mounted a block ps none k) (ht : a.Tidy ps) (hfuel : 0 < env.fuel)
    (hm : p ∈ ps) (hp : a.IsFile p) {l : UInt64} (hl : a.lastFile ps p = some l) :
    ∃ n, k.find env (a.fullPath p) = some (some n, k) ∧ a.HasData block l k n := by
  obtain ⟨qs, rs, he, hfile, hnames, hrs⟩ := lastFile_iff.mp hl
  rw [← hnames] at hrs
  obtain ⟨n, hn, hdata⟩ := h.file qs l rs he hfile hrs
  rw [hnames] at hn
  obtain ⟨hne, hplain⟩ := ht.plain p hm hp
  refine ⟨n, h.load.home.find_leads hfuel (fullPath_ne hne) (fullPath_names hplain)
    (fun hd => (hplain _ hd).2.2 rfl) ?_ hn, hdata⟩
  -- a link on the way would be one above the file
  intro us c hus _ hc hlink
  obtain ⟨q, hq, hql, hd⟩ := h.link c (down_linked .refl hc) hlink
  have hnq := h.rooted.down_inj hd hc
  exact not_link (ht.above p hm hp q hq (Or.inr hql) (hnq ▸ hus)).1 hql

theorem data_place (l : UInt64) :
    a.tarStart + UInt64.ofNat ((l - a.tarStart).toNat + 512) = l + 512 := by
  have h512 : UInt64.ofNat 512 = 512 := rfl
  rw [UInt64.ofNat_add, UInt64.ofNat_toNat, ← UInt64.add_assoc, UInt64.add_comm a.tarStart,
    UInt64.sub_add_cancel, h512]

theorem sameFile_iff (h : Mounted a block ps none k) (ht : a.Tidy ps) (hfuel : 0 < env.fuel)
    (hs : ps.Pairwise fun p p' => p.toNat < p'.toNat) (hm : p ∈ ps) (hp : a.IsFile p) :
    a.SameFile env block (ps.map a.indexEntry) k (a.fullPath p) ↔ a.ToldApart ps p := by
  obtain ⟨l, hl⟩ : ∃ l, a.lastFile ps p = some l := by
    apply Option.isSome_iff_exists.mp
    unfold lastFile
    rw [List.find?_isSome]
    exact ⟨p, List.mem_reverse.mpr hm, decide_eq_true ⟨hp, rfl⟩⟩
  obtain ⟨n, hn, hdata, hsize⟩ := h.find ht hfuel hm hp hl
  rw [toldApart_iff hs hl]
  unfold SameFile
  rw [find_map]
  constructor
  · rintro ⟨e, m, q, off, he, hf, hd, hplace, -⟩
    cases hn.symm.trans hf
    cases hdata.symm.trans hd
    obtain ⟨j, hj, rfl⟩ := Option.map_eq_some_iff.mp he
    have hjl : j + 512 = l + 512 := hplace.trans (data_place l)
    rw [hj, UInt64.add_left_inj 512 |>.mp hjl]
  · intro hj
    refine ⟨_, n, k, _, Option.map_eq_some_iff.mpr ⟨l, hj, rfl⟩, hn, hdata, ?_, hsize.symm⟩
    exact (data_place l).symm

/-- The two indexes of a well-formed archive agree on all files exactly if each file is told apart
by the text of its name. -/
theorem indexes_agree_iff (a : Archive) (env : Env) (block : Nat) (ps : List UInt64)
    (k0 k : Kernel) (entries : List TarEntry) (hw : a.WellFormed ps) (hb : Booted block k0)
    (hfuel : 0 < env.fuel)
    (hindex : Turn.Returns a.buildIndex (a.tarStart, []) (some entries))
    (hmount : Turn.Returns (a.mountLoop env block) (a.tarStart, k0) (some k)) :
    (∀ p ∈ ps, a.IsFile p → a.SameFile env block entries k (a.fullPath p)) ↔
      ∀ p ∈ ps, a.IsFile p → a.ToldApart ps p := by
  have hrun := index_run [] hw.headers (by simpa using hw.count)
  cases hindex.unique hrun
  have hm := (Mounted.start hb).run hw.headers hw.toTidy hmount
  rw [List.nil_append] at hm ⊢
  exact forall₃_congr fun p hp hf =>
    sameFile_iff hm hw.toTidy hfuel (sorted hw.headers).2 hp hf

/-- One empty file with the name `b` and a prefix of one letter, or none. -/
def archiveOf (pre : UInt8) : Archive where
  memory p := if p = 0x100000 then 98 else if p = 0x100159 then pre else 0
  tarStart := 0x100000
  tarSize := 512

theorem archiveOf_wellFormed {pre : UInt8} (hpre : pre = 0 ∨ pre = 97) :
    (archiveOf pre).WellFormed [0x100000] where
  plain p hp hf := by
    rw [List.mem_singleton.mp hp]
    rcases hpre with rfl | rfl
    · decide
    · decide
  above p hp hf q hq _ _ := by
    rw [List.mem_singleton.mp hp] at hf ⊢
    rw [List.mem_singleton.mp hq]
    exact ⟨hf, rfl⟩
  loaded := (by decide : (0x100000 : UInt64) ≠ 0)
  headers := by
    rcases hpre with rfl | rfl
    · refine .entry (isHeader_ptr.mpr ⟨by decide, by decide +kernel⟩) ?_ (.stop (Or.inl ?_))
      · unfold Inside
        decide
      · decide
    · refine .entry (isHeader_ptr.mpr ⟨by decide, by decide +kernel⟩) ?_ (.stop (Or.inl ?_))
      · unfold Inside
        decide
      · decide
  count := by decide

theorem archiveOf_mounts {pre : UInt8} (hpre : pre = 0 ∨ pre = 97) :
    ∃ k, Turn.Returns ((archiveOf pre).mountLoop freshEnv 0) (0x100000, boot) (some k) := by
  have hrun : (loopFor ((archiveOf pre).mountLoop freshEnv 0) 2 (0x100000, boot)).any
      (fun r => r.isSome) = true := by
    rcases hpre with rfl | rfl
    · decide +kernel
    · decide +kernel
  obtain ⟨r, hr, hsome⟩ := any_exists hrun
  obtain ⟨k, rfl⟩ := Option.isSome_iff_exists.mp hsome
  exact ⟨k, 2, hr⟩

abbrev plainArchive : Archive := archiveOf 0

abbrev prefixedArchive : Archive := archiveOf 97

theorem indexes_agree_iff_plain : plainArchive.WellFormed [0x100000] ∧ ∃ k,
    Turn.Returns (plainArchive.mountLoop freshEnv 0) (0x100000, boot) (some k) ∧
      ∀ p ∈ [0x100000], plainArchive.IsFile p → plainArchive.SameFile freshEnv 0
        [plainArchive.indexEntry 0x100000] k (plainArchive.fullPath p) := by
  have hw := archiveOf_wellFormed (.inl rfl)
  obtain ⟨k, hk⟩ := archiveOf_mounts (.inl rfl)
  refine ⟨hw, k, hk, (indexes_agree_iff plainArchive freshEnv 0 [0x100000] boot k _ hw boot_booted
    (by decide) (index_run [] hw.headers (by decide)) hk).mpr fun p hp hf => ?_⟩
  rw [List.mem_singleton.mp hp] at hf ⊢
  exact ⟨[], 0x100000, [], rfl, hf, rfl, nofun, by decide, nofun⟩

/-- The table has the file as `b`, the tree as `a/b`. -/
theorem prefixed_not_found : prefixedArchive.WellFormed [0x100000] ∧ ∃ entries k,
    Turn.Returns prefixedArchive.buildIndex (0x100000, []) (some entries) ∧
    Turn.Returns (prefixedArchive.mountLoop freshEnv 0) (0x100000, boot) (some k) ∧
    prefixedArchive.IsFile 0x100000 ∧
    ¬ prefixedArchive.SameFile freshEnv 0 entries k (prefixedArchive.fullPath 0x100000) := by
  have hw := @archiveOf_wellFormed 97 (.inr rfl)
  obtain ⟨k, hk⟩ := @archiveOf_mounts 97 (.inr rfl)
  refine ⟨hw, _, k, index_run [] hw.headers (by decide), hk, by decide, ?_⟩
  rintro ⟨e, n, q, off, he, -⟩
  have hnone : find [prefixedArchive.indexEntry 0x100000] (prefixedArchive.fullPath 0x100000) =
      none := by decide
  cases hnone.symm.trans he

end agreement

end LosTacOS.Os.Archive
