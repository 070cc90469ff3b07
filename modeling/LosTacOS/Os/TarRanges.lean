import LosTacOS.Os.Rootfs
import LosTacOS.Os.TarWalks

/-! Where the loops over the root archive read headers, and where the data of the entries lies that
they note. Nothing bounds a size or the last header by the end of the image. -/
namespace LosTacOS.Os.Archive

section statement

variable (a : Archive) (env : Env) (block : Nat)

def Inside (place len : Nat) : Prop :=
  a.tarStart.toNat ≤ place ∧ place + len ≤ a.tarStart.toNat + a.tarSize.toNat

def ReadsInside {σ ρ : Type} (loop : UInt64 × σ → Turn (UInt64 × σ) ρ) (s : σ) : Prop :=
  ∀ t, Relation.ReflTransGen (Turn.Hop loop) (a.tarStart, s) t → t.1 < a.stop →
    a.Inside t.1.toNat 512

/-- `build_index` and `mount_vfs` read headers in the image only, and the data of every entry of
the index and of every file of the tree lies in the image, all the time. -/
structure StaysInside (k : Kernel) : Prop where
  indexHeaders : a.ReadsInside a.buildIndex []
  treeHeaders : a.tarStart ≠ 0 → a.ReadsInside (a.mountLoop env block) k
  entries : ∀ t, Relation.ReflTransGen (Turn.Hop a.buildIndex) (a.tarStart, []) t →
    ∀ e ∈ t.2, a.Inside e.data.toNat e.size.toNat
  files : a.tarStart ≠ 0 → ∀ t,
    Relation.ReflTransGen (Turn.Hop (a.mountLoop env block)) (a.tarStart, k) t →
    ∀ n ∈ t.2.nodes.used, ∀ p, t.2.fileData n = some p →
      a.Inside (a.tarStart.toNat + p.off) (t.2.fileSize n)

/-- The place that the loops come to after `i` headers. -/
inductive Visited : Nat → UInt64 → Prop
  | first : Visited 0 a.tarStart
  | next {i : Nat} {p : UInt64} (h : Visited i p) (hp : a.IsHeader p.toNat) :
    Visited (i + 1) (p + step (a.sizeAt p))

def DataFits (p : UInt64) : Prop :=
  (a.sizeAt p).toNat ≤ a.tarStart.toNat + a.tarSize.toNat - (p.toNat + 512)

def Regular (p : UInt64) : Prop :=
  (a.typeflag p = 48 ∨ a.typeflag p = 0) ∧ headerPath (a.bytes p) 0 ≠ []

def GetsFile (p : UInt64) (k : Kernel) : Prop :=
  ∃ n k1, k.createFilePath env (headerPath (a.bytes p) 0) = some (some n, k1) ∧
    (k1.kmalloc env k1.files.used).1 ≠ none

def lastBlock : UInt64 := a.tarStart + a.tarSize / 512 * 512

/-- The loops stay behind the start of the image and do not come to a block that the end of the
image cuts, and the data fits of every header that is noted. -/
structure Whole (k : Kernel) : Prop where
  ahead : ∀ i p, a.Visited i p → p < a.stop → a.tarStart ≤ p
  cut : ∀ i, a.Visited i a.lastBlock → ¬ a.lastBlock < a.stop
  indexed : ∀ i p, i < maxTarFiles → a.Visited i p → a.IsHeader p.toNat → a.DataFits p
  mounted : a.tarStart ≠ 0 → ∀ p q,
    Relation.ReflTransGen (Turn.Hop (a.mountLoop env block)) (a.tarStart, k) (p, q) →
    a.IsHeader p.toNat → a.Regular p → a.GetsFile env p q → a.DataFits p

end statement

section places

variable {a : Archive} {i : Nat} {p : UInt64}

/-- The places of headers lie whole blocks apart from the start. -/
theorem Visited.blocks (h : a.Visited i p) : ∃ j : UInt64, p = a.tarStart + j * 512 := by
  induction h with
  | first => exact ⟨0, by rw [UInt64.zero_mul, UInt64.add_zero]⟩
  | @next i p h hp ih =>
    obtain ⟨j, rfl⟩ := ih
    refine ⟨j + (1 + (a.sizeAt (a.tarStart + j * 512) + 511) / 512), ?_⟩
    unfold step
    rw [UInt64.add_mul, UInt64.add_mul, UInt64.one_mul, UInt64.add_assoc]

/-- An image with a header below its end lies in the address space. -/
theorem room (hle : a.tarStart ≤ p) (hlt : p < a.stop) :
    a.tarStart.toNat + a.tarSize.toNat < 2 ^ 64 := by
  have hs := a.tarSize.toNat_lt
  have hle := UInt64.le_iff_toNat_le.mp hle
  have hlt := UInt64.lt_iff_toNat_lt.mp hlt
  unfold stop at hlt
  rw [UInt64.toNat_add] at hlt
  omega

/-- A place whole blocks behind the start and below the end has a block of the image behind it unless
the end cuts that block. -/
theorem inside_or_cut {j : UInt64} (hp : p = a.tarStart + j * 512) (hle : a.tarStart ≤ p)
    (hlt : p < a.stop) : a.Inside p.toNat 512 ∨ p = a.lastBlock := by
  have hroom := room hle hlt
  have hle' := UInt64.le_iff_toNat_le.mp hle
  have hlt' := UInt64.lt_iff_toNat_lt.mp hlt
  have h512 : (512 : UInt64).toNat = 512 := rfl
  have hblocks : p.toNat % 512 = a.tarStart.toNat % 512 := by
    rw [hp, UInt64.toNat_add, UInt64.toNat_mul, h512]
    omega
  unfold stop at hlt'
  rw [UInt64.toNat_add, Nat.mod_eq_of_lt hroom] at hlt'
  by_cases hin : p.toNat + 512 ≤ a.tarStart.toNat + a.tarSize.toNat
  · exact Or.inl ⟨hle', hin⟩
  · refine Or.inr (UInt64.toNat_inj.mp ?_)
    unfold lastBlock
    rw [UInt64.toNat_add, UInt64.toNat_mul, UInt64.toNat_div, h512]
    omega

theorem not_inside_cut (hlt : a.lastBlock < a.stop) : ¬ a.Inside a.lastBlock.toNat 512 := by
  have h512 : (512 : UInt64).toNat = 512 := rfl
  have hs := a.tarSize.toNat_lt
  have ht := a.tarStart.toNat_lt
  rintro ⟨hle, hin⟩
  have hlt := UInt64.lt_iff_toNat_lt.mp hlt
  unfold lastBlock at hle hin hlt
  unfold stop at hlt
  rw [UInt64.toNat_add, UInt64.toNat_mul, UInt64.toNat_div, h512] at hle hin hlt
  rw [UInt64.toNat_add] at hlt
  omega

/-- The data behind a header of the image lies in the image if it fits. -/
theorem dataFits_iff (h : a.Inside p.toNat 512) :
    a.DataFits p ↔ a.Inside (p.toNat + 512) (a.sizeAt p).toNat := by
  obtain ⟨hle, hin⟩ := h
  unfold DataFits Inside
  omega

end places

section index

variable {a : Archive} {env : Env} {block i : Nat} {p : UInt64} {k : Kernel}
  {t : UInt64 × List TarEntry}

/-- `build_index` comes to every place, with as many entries as it has passed headers. -/
theorem Visited.indexed (h : a.Visited i p) : ∃ es : List TarEntry, es.length = min i maxTarFiles ∧
    Relation.ReflTransGen (Turn.Hop a.buildIndex) (a.tarStart, []) (p, es) := by
  induction h with
  | first => exact ⟨[], rfl, .refl⟩
  | @next i p h hp ih =>
    obtain ⟨es, hlen, hr⟩ := ih
    refine ⟨_, ?_, hr.tail (walk_hop_iff.mpr ⟨hp, _, rfl, rfl⟩)⟩
    split
    · rw [List.length_append, List.length_singleton]
      omega
    · omega

/-- A place of a loop over the headers is one of those that follow each other. -/
theorem visited_of_reached {σ : Type} {entry : UInt64 → σ → Option σ} {s : σ} {t : UInt64 × σ}
    (hr : Relation.ReflTransGen (Turn.Hop (a.walk entry)) (a.tarStart, s) t) :
    ∃ i, a.Visited i t.1 := by
  induction hr with
  | refl => exact ⟨0, .first⟩
  | tail _ hop ih =>
    obtain ⟨i, hi⟩ := ih
    obtain ⟨hp, s', -, rfl⟩ := walk_hop_iff.mp hop
    exact ⟨i + 1, hi.next hp⟩

theorem Whole.header (h : a.Whole env block k) (hv : a.Visited i p) (hlt : p < a.stop) :
    a.Inside p.toNat 512 := by
  have hle := h.ahead i p hv hlt
  obtain ⟨j, hj⟩ := hv.blocks
  cases inside_or_cut hj hle hlt with
  | inl hin => exact hin
  | inr hcut =>
    rw [hcut] at hv hlt
    exact absurd hlt (h.cut i hv)

theorem Whole.reads {σ : Type} {entry : UInt64 → σ → Option σ} {s : σ}
    (h : a.Whole env block k) : a.ReadsInside (a.walk entry) s := by
  intro t ht hlt
  obtain ⟨i, hi⟩ := visited_of_reached ht
  exact h.header hi hlt

theorem data_toNat (h : a.Inside p.toNat 512) (hlt : p < a.stop) :
    (p + 512).toNat = p.toNat + 512 := by
  have hroom := room (UInt64.le_iff_toNat_le.mpr h.1) hlt
  have h512 : (512 : UInt64).toNat = 512 := rfl
  have hin := h.2
  rw [UInt64.toNat_add, h512]
  omega

theorem Whole.entries (h : a.Whole env block k)
    (hr : Relation.ReflTransGen (Turn.Hop a.buildIndex) (a.tarStart, []) t) :
    (∃ i, a.Visited i t.1 ∧ t.2.length = min i maxTarFiles) ∧
      ∀ e ∈ t.2, a.Inside e.data.toNat e.size.toNat := by
  induction hr with
  | refl => exact ⟨⟨0, .first, rfl⟩, nofun⟩
  | @tail t u _ hop ih =>
    obtain ⟨⟨i, hi, hlen⟩, hin⟩ := ih
    obtain ⟨hp, es, hes, rfl⟩ := walk_hop_iff.mp hop
    cases hes
    have hlt := (isHeader_ptr.mp hp).1
    have hhead := h.header hi hlt
    by_cases hroom : t.2.length < maxTarFiles
    · rw [if_pos hroom]
      have hsmall : i < maxTarFiles := by omega
      refine ⟨⟨i + 1, hi.next hp, ?_⟩, fun e he => ?_⟩
      · rw [List.length_append, List.length_singleton]
        omega
      · rcases List.mem_append.mp he with he | he
        · exact hin e he
        · rw [List.mem_singleton.mp he]
          unfold indexEntry
          rw [data_toNat hhead hlt]
          exact (dataFits_iff hhead).mp (h.indexed i _ hsmall hi hp)
    · rw [if_neg hroom]
      have hfull : t.2.length = min (i + 1) maxTarFiles := by omega
      exact ⟨⟨i + 1, hi.next hp, hfull⟩, hin⟩

theorem StaysInside.header (h : a.StaysInside env block k) (hv : a.Visited i p) (hlt : p < a.stop) :
    a.Inside p.toNat 512 := by
  obtain ⟨es, -, hr⟩ := hv.indexed
  exact h.indexHeaders _ hr hlt

theorem StaysInside.indexed (h : a.StaysInside env block k) (hi : i < maxTarFiles)
    (hv : a.Visited i p) (hp : a.IsHeader p.toNat) : a.DataFits p := by
  obtain ⟨es, hlen, hr⟩ := hv.indexed
  have hlt := (isHeader_ptr.mp hp).1
  have hhead := h.header hv hlt
  have hnext := hr.tail (walk_hop_iff.mpr ⟨hp, _, rfl, rfl⟩)
  have hin := h.entries _ hnext (a.indexEntry p)
  rw [if_pos (by omega)] at hin
  have hdata := hin (List.mem_append_right _ List.mem_cons_self)
  unfold indexEntry at hdata
  rw [data_toNat hhead hlt] at hdata
  exact (dataFits_iff hhead).mpr hdata

end index

section tree

open Kernel

variable {a : Archive} {env : Env} {block : Nat} {p : UInt64} {k k' : Kernel} {n : Nat}
  {t : UInt64 × Kernel}

/-- The tree as `vfs::init` leaves it, before the archive is loaded from its block. -/
structure Booted (block : Nat) (k : Kernel) : Prop where
  nodes : k.nodes = boot.nodes
  root : k.root = boot.root
  home : k.getProcessCwd = k.root
  heap : 0 ∉ k.blocks.used
  image : block = 0 ∨ block ∈ k.blocks.used

theorem field_start (p : UInt64) (start len : Nat) :
    field (a.bytes a.tarStart) ((p - a.tarStart).toNat + start) len = field (a.bytes p) start len := by
  unfold field
  congr 1
  apply List.map_congr_left
  intro i _
  rw [Nat.add_assoc, bytes_start]

theorem headerPath_start (p : UInt64) :
    headerPath (a.bytes a.tarStart) (p - a.tarStart).toNat = headerPath (a.bytes p) 0 := by
  have hname := field_start (a := a) p 0 100
  rw [Nat.add_zero] at hname
  unfold headerPath
  rw [bytes_start, hname, field_start, Nat.zero_add]

inductive Entered (a : Archive) (env : Env) (block : Nat) (p : UInt64) (k : Kernel) :
    Kernel → Prop
  | other : a.typeflag p ≠ 50 → ¬ a.Regular p → Entered a env block p k k
  | link {r : Option Nat} {k' : Kernel} : a.typeflag p = 50 →
    k.createSymlinkPath env (headerPath (a.bytes p) 0) (field (a.bytes p) 157 100) = some (r, k') →
    Entered a env block p k k'
  | dir {r : Option Nat} {k' : Kernel} : a.typeflag p = 53 →
    k.createDirPath env (headerPath (a.bytes p) 0) = some (r, k') → Entered a env block p k k'
  | blocked {k' : Kernel} : a.Regular p →
    k.createFilePath env (headerPath (a.bytes p) 0) = some (none, k') → Entered a env block p k k'
  | file {n : Nat} {k1 k' : Kernel} : a.Regular p →
    k.createFilePath env (headerPath (a.bytes p) 0) = some (some n, k1) →
    k1.attachFile env n ⟨block, (p - a.tarStart).toNat + 512⟩ (a.sizeAt p).toNat = some k' →
    Entered a env block p k k'

theorem mountEntry_entered
    (hm : k.mountEntry env (a.bytes a.tarStart) block (p - a.tarStart).toNat = some k') :
    Entered a env block p k k' := by
  unfold Kernel.mountEntry at hm
  rw [bytes_start, headerPath_start, headerSize_start, field_start] at hm
  dsimp only at hm
  by_cases h2 : a.bytes p 156 = 50
  · rw [if_pos h2] at hm
    obtain ⟨⟨r, k1⟩, h1, hm⟩ := Option.bind_eq_some_iff.mp hm
    cases hm
    exact .link h2 h1
  rw [if_neg h2] at hm
  by_cases hnil : headerPath (a.bytes p) 0 = []
  · rw [if_pos hnil] at hm
    cases hm
    exact .other h2 fun hreg => hreg.2 hnil
  rw [if_neg hnil] at hm
  by_cases h5 : a.bytes p 156 = 53
  · rw [if_pos h5] at hm
    obtain ⟨⟨r, k1⟩, h1, hm⟩ := Option.bind_eq_some_iff.mp hm
    cases hm
    exact .dir h5 h1
  rw [if_neg h5] at hm
  by_cases h0 : a.bytes p 156 = 48 ∨ a.bytes p 156 = 0
  · rw [if_pos h0] at hm
    obtain ⟨⟨r, k1⟩, h1, hm⟩ := Option.bind_eq_some_iff.mp hm
    cases r with
    | none =>
      cases hm
      exact .blocked ⟨h0, hnil⟩ h1
    | some n => exact .file ⟨h0, hnil⟩ h1 hm
  · rw [if_neg h0] at hm
    cases hm
    exact .other h2 fun hreg => h0 hreg.1

/-- The entry of a regular file whose path gets a node and a record. -/
theorem mountEntry_file (h : a.Regular p) {k1 : Kernel}
    (hc : k.createFilePath env (headerPath (a.bytes p) 0) = some (some n, k1)) :
    k.mountEntry env (a.bytes a.tarStart) block (p - a.tarStart).toNat =
      k1.attachFile env n ⟨block, (p - a.tarStart).toNat + 512⟩ (a.sizeAt p).toNat := by
  have htype : a.bytes p 156 = 48 ∨ a.bytes p 156 = 0 := h.1
  have h2 : a.bytes p 156 ≠ 50 := by
    rcases htype with h | h
    · exact fun he => absurd (h.symm.trans he) (by decide)
    · exact fun he => absurd (h.symm.trans he) (by decide)
  have h5 : a.bytes p 156 ≠ 53 := by
    rcases htype with h | h
    · exact fun he => absurd (h.symm.trans he) (by decide)
    · exact fun he => absurd (h.symm.trans he) (by decide)
  unfold Kernel.mountEntry
  rw [bytes_start, headerPath_start, headerSize_start]
  dsimp only
  rw [if_neg h2, if_neg h.2, if_neg h5, if_pos htype, hc]
  rfl

/-- A record for a node: its own data is new, the data of the others stays. -/
theorem attachFile_data (hk : DataKept k) {d : Ptr} {size : Nat}
    (ha : k.attachFile env n d size = some k') :
    k'.fileData n = some d ∧ k'.fileSize n = size ∧ k'.nodes.used = k.nodes.used ∧
      ∀ m ∈ k.nodes.used, m ≠ n → k'.fileData m = k.fileData m ∧ k'.fileSize m = k.fileSize m := by
  unfold Kernel.attachFile at ha
  split at ha
  · cases ha
  rename_i f k1 hm
  obtain ⟨rfl, hfresh⟩ := kmalloc_eq hm
  have hk1 : DataKept { k with allocs := k.allocs + 1 } := hk.congr rfl rfl rfl rfl
  have hother := Others.attach (n := n) (x := ⟨size, 0, some d⟩) hk1 (hfresh f rfl)
  cases ha
  have hfile := withFile_file
    { k with allocs := k.allocs + 1, files := k.files.alloc f ⟨size, 0, some d⟩ } n f n
  rw [if_pos rfl] at hfile
  refine ⟨attach_data, ?_, hother.used, fun m hu hne => (hother.file m hu hne).2⟩
  refine (fileSize_eq hfile).trans ?_
  exact congrArg File.size (Arena.alloc_cell_self ..)

theorem attachFile_isSome {d : Ptr} {size : Nat} (h : (k.kmalloc env k.files.used).1 ≠ none) :
    ∃ k', k.attachFile env n d size = some k' := by
  unfold Kernel.attachFile
  cases hm : k.kmalloc env k.files.used with
  | mk r k1 =>
    rw [hm] at h
    cases r with
    | none => exact absurd rfl h
    | some f => exact ⟨_, rfl⟩

theorem kmalloc_of_attachFile {d : Ptr} {size : Nat} (h : k.attachFile env n d size = some k') :
    (k.kmalloc env k.files.used).1 ≠ none := by
  unfold Kernel.attachFile at h
  intro hnone
  cases hm : k.kmalloc env k.files.used with
  | mk r k1 =>
    rw [hm] at h hnone
    dsimp only at hnone
    rw [hnone] at h
    cases h

/-- What the loop of `mount_vfs` keeps, for any archive. -/
theorem loading_of_reached (hk : Loading block k)
    (hr : Relation.ReflTransGen (Turn.Hop (a.mountLoop env block)) (a.tarStart, k) t) :
    Loading block t.2 := by
  induction hr with
  | refl => exact hk
  | @tail t u _ hop ih =>
    obtain ⟨-, k', hk', rfl⟩ := walk_hop_iff.mp hop
    exact ((loading_nodes block).mountEntry ih
      (fun h _ ha => h.attachFile (Nat.succ_ne_zero _) ha) hk').1

theorem offset_toNat (h : a.Inside p.toNat 512) :
    a.tarStart.toNat + ((p - a.tarStart).toNat + 512) = p.toNat + 512 := by
  have hle := h.1
  rw [UInt64.toNat_sub_of_le _ _ (UInt64.le_iff_toNat_le.mpr hle)]
  omega

def FilesInside (a : Archive) (k : Kernel) : Prop :=
  ∀ n ∈ k.nodes.used, ∀ p, k.fileData n = some p →
    a.Inside (a.tarStart.toNat + p.off) (k.fileSize n)

theorem FilesInside.same (h : a.FilesInside k) (hs : SameData k k') : a.FilesInside k' := by
  intro n hn p hp
  obtain ⟨hu, hp', hsize⟩ := hs.data hn hp
  rw [← hsize]
  exact h n hu p hp'

theorem Whole.files (h : a.Whole env block k) (hstart : a.tarStart ≠ 0) (hk : Loading block k)
    (hf : a.FilesInside k)
    (hr : Relation.ReflTransGen (Turn.Hop (a.mountLoop env block)) (a.tarStart, k) t) :
    a.FilesInside t.2 := by
  induction hr with
  | refl => exact hf
  | @tail t u hr hop ih =>
    obtain ⟨hp, k', hk', rfl⟩ := walk_hop_iff.mp hop
    have hload := loading_of_reached hk hr
    have T : NodeRule env AtHome Quiet Linked (fun _ _ _ => True) := home_nodes
    cases mountEntry_entered hk' with
    | other => exact ih
    | link _ hc => exact ih.same (T.createSymlinkPath hload.home hc).2.toSameData
    | dir _ hc => exact ih.same (T.createDirPath hload.home hc).2.1.toSameData
    | blocked _ hc => exact ih.same (T.createFilePath hload.home hc).2.1.toSameData
    | @file n k1 _ hreg hc ha =>
      obtain ⟨hh, hq, -⟩ := T.createFilePath hload.home hc
      have hs := hq.toSameData
      obtain ⟨hdata, hsize, hused, hold⟩ := attachFile_data (hload.toSound.quiet hh hs).data ha
      have hfits := h.mounted hstart t.1 t.2 hr hp hreg ⟨n, k1, hc, kmalloc_of_attachFile ha⟩
      have hhead : a.Inside t.1.toNat 512 := h.reads t hr (isHeader_ptr.mp hp).1
      intro m hm d hd
      by_cases hmn : m = n
      · rw [hmn] at hd ⊢
        cases hdata.symm.trans hd
        rw [hsize, offset_toNat hhead]
        exact (dataFits_iff hhead).mp hfits
      · have hm1 : m ∈ k1.nodes.used := hused ▸ hm
        obtain ⟨h1, h2⟩ := hold m hm1 hmn
        rw [h1] at hd
        rw [h2]
        exact ih.same hs m hm1 d hd

theorem StaysInside.mounted (h : a.StaysInside env block k) (hstart : a.tarStart ≠ 0)
    (hk : Loading block k) {q : Kernel}
    (hr : Relation.ReflTransGen (Turn.Hop (a.mountLoop env block)) (a.tarStart, k) (p, q))
    (hp : a.IsHeader p.toNat) (hreg : a.Regular p) (hg : a.GetsFile env p q) : a.DataFits p := by
  obtain ⟨n, k1, hc, hroom⟩ := hg
  obtain ⟨k', ha⟩ := attachFile_isSome (n := n) (d := ⟨block, (p - a.tarStart).toNat + 512⟩)
    hroom
  have hload := loading_of_reached hk hr
  have T : NodeRule env AtHome Quiet Linked (fun _ _ _ => True) := home_nodes
  obtain ⟨hh, hq, hn⟩ := T.createFilePath hload.home hc
  obtain ⟨hdata, hsize, hused, -⟩ :=
    attachFile_data (hload.toSound.quiet hh hq.toSameData).data ha
  have hnext := hr.tail (walk_hop_iff.mpr ⟨hp, k', (mountEntry_file hreg hc).trans ha, rfl⟩)
  have hhead := h.treeHeaders hstart _ hr (isHeader_ptr.mp hp).1
  have hin := h.files hstart _ hnext n (hused ▸ hh.toRooted.used (hn n rfl)) _ hdata
  rw [hsize, offset_toNat hhead] at hin
  exact (dataFits_iff hhead).mpr hin

/-- The loops read headers, and note data, in the image only exactly if the image is whole as far as
they go. -/
theorem stays_inside_iff (a : Archive) (env : Env) (block : Nat) (k : Kernel)
    (hb : Booted block k) : a.StaysInside env block k ↔ a.Whole env block k := by
  have hk : Loading block k := .start hb.nodes hb.root hb.home hb.heap hb.image
  have hfiles : a.FilesInside k := by
    intro n _ p hp
    unfold fileData node at hp
    rw [hb.nodes] at hp
    cases hp
  constructor
  · intro h
    refine ⟨fun i p hv hlt => UInt64.le_iff_toNat_le.mpr (h.header hv hlt).1, fun i hv hlt => ?_,
      fun i p hi hv hp => h.indexed hi hv hp,
      fun hstart p q hr hp hreg hg => h.mounted hstart hk hr hp hreg hg⟩
    exact not_inside_cut hlt (h.header hv hlt)
  · intro h
    exact ⟨h.reads, fun _ => h.reads, fun t ht => (h.entries ht).2,
      fun hstart t ht => h.files hstart hk hfiles ht⟩

theorem boot_booted : Booted 0 boot := ⟨rfl, rfl, rfl, nofun, Or.inl rfl⟩

/-- A file `a` of 1000 bytes behind its header, in an image of `size` bytes. -/
def archiveOfSize (size : UInt64) : Archive where
  memory p :=
    if p = 0x100000 then 97
    else if p = 0x10007C then 49
    else if p = 0x10007D then 55
    else if p = 0x10007E then 53
    else if p = 0x10007F then 48
    else 0
  tarStart := 0x100000
  tarSize := size

abbrev fullArchive : Archive := archiveOfSize 1536

abbrev shortArchive : Archive := archiveOfSize 1024

theorem fullArchive_visited {i : Nat} {p : UInt64} (h : fullArchive.Visited i p) :
    p = 0x100000 ∨ p = 0x100600 := by
  induction h with
  | first => exact Or.inl rfl
  | next _ hp ih =>
    rcases ih with rfl | rfl
    · exact Or.inr (by decide)
    · exact absurd (isHeader_ptr.mp hp).1 (by decide)

theorem fullArchive_whole : fullArchive.Whole freshEnv 0 boot := by
  have hfits : fullArchive.DataFits 0x100000 := by
    unfold DataFits
    decide +kernel
  have hheader {p : UInt64} (h : p = 0x100000 ∨ p = 0x100600) (hp : fullArchive.IsHeader p.toNat) :
      fullArchive.DataFits p := by
    rcases h with rfl | rfl
    · exact hfits
    · exact absurd (isHeader_ptr.mp hp).1 (by decide)
  refine ⟨fun i p h _ => ?_, fun i _ => by decide, fun i p _ h hp => hheader (fullArchive_visited h) hp,
    fun _ p q hr hp _ _ => ?_⟩
  · rcases fullArchive_visited h with rfl | rfl
    · decide
    · decide
  · obtain ⟨i, hi⟩ := visited_of_reached hr
    exact hheader (fullArchive_visited hi) hp

theorem stays_inside_iff_sizes : fullArchive.StaysInside freshEnv 0 boot ∧
    ¬ shortArchive.StaysInside freshEnv 0 boot := by
  refine ⟨(stays_inside_iff fullArchive freshEnv 0 boot boot_booted).mpr fullArchive_whole, fun h => ?_⟩
  have hwhole := (stays_inside_iff shortArchive freshEnv 0 boot boot_booted).mp h
  have hfits := hwhole.indexed 0 _ (by decide) .first (isHeader_ptr.mpr ⟨by decide, by decide +kernel⟩)
  unfold DataFits at hfits
  exact absurd hfits (by decide +kernel)

theorem shortArchive_leaves : ¬ shortArchive.StaysInside freshEnv 0 boot := by
  intro h
  have hp : shortArchive.IsHeader shortArchive.tarStart.toNat :=
    isHeader_ptr.mpr ⟨by decide, by decide +kernel⟩
  have hfits := h.indexed (by decide) .first hp
  unfold DataFits at hfits
  exact absurd hfits (by decide +kernel)

end tree

end LosTacOS.Os.Archive
