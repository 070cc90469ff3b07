import LosTacOS.Lib.ArrayFiles
import LosTacOS.Os.Rootfs
import Mathlib

/-! Plain files as arrays of bytes: what `sys_write`, `sys_read` and `sys_lseek` do through
descriptors on files of the tree, against the same calls on arrays. -/
namespace LosTacOS.Os.Kernel

variable {env : Env} {k k' q : Kernel} {n m p f : Nat} {i : Fin maxFds} {fd : Int}

section view

def dataAt (k : Kernel) (n x : Nat) : UInt8 :=
  match k.fileData n with
  | some p => k.blocks.cell p.block (p.off + x)
  | none => 0

def content (k : Kernel) (n : Nat) : List UInt8 := (List.range (k.fileSize n)).map (k.dataAt n)

def arrays (k : Kernel) : ArrayFiles Nat (Nat × Fin maxFds) UInt8 where
  contents n := if n ∈ k.nodes.used then k.content n else []
  offset d := (k.entry d.1 d.2).offset

structure FileFd (k : Kernel) (fd : Int) (p : Nat) (i : Fin maxFds) (n : Nat) : Prop where
  opened : k.openFd fd = some (p, i)
  type : (k.entry p i).type = .file
  node : (k.entry p i).node = some n
  used : n ∈ k.nodes.used
  plain : (k.node n).directory = false
  dev : (k.node n).dev = none

def Apart (k : Kernel) (n : Nat) : Prop := ∀ m ∈ k.nodes.used, m ≠ n → ∀ p q,
  k.fileData n = some p → k.fileData m = some q → q.block = p.block →
    q.off + k.fileSize m ≤ p.off ∨ p.off + k.fileSize n < q.off

theorem DataKept.apart_owned (h : DataKept k) (hn : n ∈ k.nodes.used) (ho : k.Owns n) :
    k.Apart n := by
  intro m hm hne p q hp hq hb
  exact absurd (h.apart n hn m hm p q hp hq (ho p hp) hb) hne

theorem content_length : (k.content n).length = k.fileSize n := by
  unfold content
  rw [List.length_map, List.length_range]

theorem content_getD {x : Nat} (h : x < k.fileSize n) : (k.content n).getD x 0 = k.dataAt n x := by
  unfold content
  rw [List.getD_eq_getElem?_getD, List.getElem?_map, List.getElem?_range h]
  rfl

theorem content_congr (hd : k'.fileData n = k.fileData n) (hs : k'.fileSize n = k.fileSize n)
    (hc : ∀ p, k.fileData n = some p → ∀ x < k.fileSize n,
      k'.blocks.cell p.block (p.off + x) = k.blocks.cell p.block (p.off + x)) :
    k'.content n = k.content n := by
  unfold content
  rw [hs]
  refine List.map_congr_left fun x hx => ?_
  unfold dataAt
  rw [hd]
  cases hp : k.fileData n with
  | none => rfl
  | some p => exact hc p hp x (List.mem_range.mp hx)

theorem arrays_setEntry (k : Kernel) (p : Nat) (i : Fin maxFds) (e : FdEntry) :
    (k.setEntry p i e).arrays =
      { k.arrays with offset := Function.update k.arrays.offset (p, i) e.offset } := by
  apply ArrayFiles.ext
  · rfl
  · funext ⟨x, j⟩
    change ((k.setEntry p i e).entry x j).offset = _
    dsimp only
    rw [setEntry_entry, Function.update_apply]
    by_cases hx : x = p ∧ j = i
    · rw [if_pos hx, if_pos (by rw [hx.1, hx.2])]
    · rw [if_neg hx, if_neg fun h => hx ⟨congrArg Prod.fst h, congrArg Prod.snd h⟩]
      rfl

theorem arrays_update (hu : k'.nodes.used = k.nodes.used) (hp : k'.procSide = k.procSide)
    (hn : n ∈ k.nodes.used) (ho : ∀ m ∈ k.nodes.used, m ≠ n → k'.content m = k.content m) :
    k'.arrays = { k.arrays with
      contents := Function.update k.arrays.contents n (k'.content n) } := by
  apply ArrayFiles.ext
  · funext m
    change (if m ∈ k'.nodes.used then k'.content m else []) = _
    dsimp only
    rw [hu, Function.update_apply]
    by_cases hmn : m = n
    · rw [if_pos hmn, hmn, if_pos hn]
    · rw [if_neg hmn]
      by_cases hm : m ∈ k.nodes.used
      · rw [if_pos hm, ho m hm hmn]
        exact (if_pos hm).symm
      · rw [if_neg hm]
        exact (if_neg hm).symm
  · funext d
    exact congrArg FdEntry.offset (entry_of_procSide hp d.1 d.2)

end view

section write

theorem copyTo_cell (k : Kernel) (p : Ptr) (bytes : List UInt8) (b y : Nat) :
    (k.copyTo p bytes).blocks.cell b y =
      if b = p.block ∧ p.off ≤ y ∧ y < p.off + bytes.length then bytes.getD (y - p.off) 0
      else k.blocks.cell b y := by
  unfold copyTo
  dsimp only
  rw [Arena.set_cell]
  by_cases hb : b = p.block
  · rw [if_pos hb, hb]
    simp only [true_and]
  · rw [if_neg hb, if_neg fun h => hb h.1]

def laidIn (k : Kernel) (q : Ptr) (o size : Nat) (data : List UInt8) : Kernel :=
  (k.copyTo ⟨q.block, q.off + o⟩ data).copyTo ⟨q.block, q.off + size⟩ [0]

theorem laidIn_cell {r : Ptr} {o size b y : Nat} {data : List UInt8} :
    (k.laidIn r o size data).blocks.cell b y =
      if b = r.block ∧ y = r.off + size then 0
      else if b = r.block ∧ r.off + o ≤ y ∧ y < r.off + o + data.length then
        data.getD (y - (r.off + o)) 0
      else k.blocks.cell b y := by
  unfold laidIn
  rw [copyTo_cell, copyTo_cell]
  by_cases hy : b = r.block ∧ y = r.off + size
  · rw [if_pos hy, if_pos ⟨hy.1, hy.2.ge, by rw [hy.2]; exact Nat.lt_succ_self _⟩, hy.2,
      Nat.sub_self]
    rfl
  · rw [if_neg hy, if_neg]
    rintro ⟨hb, h1, h2⟩
    exact hy ⟨hb, Nat.le_antisymm (Nat.le_of_lt_succ h2) h1⟩

theorem laidIn_content {r : Ptr} {o : Nat} {data : List UInt8} (hr : k.fileData n = some r) :
    (k.laidIn r o (k.fileSize n) data).content n = (List.range (k.fileSize n)).map fun x =>
      if o ≤ x ∧ x < o + data.length then data.getD (x - o) 0 else k.dataAt n x := by
  have hsize : (k.laidIn r o (k.fileSize n) data).fileSize n = k.fileSize n := rfl
  have hdata : (k.laidIn r o (k.fileSize n) data).fileData n = some r := hr
  unfold content
  rw [hsize]
  refine List.map_congr_left fun x hx => ?_
  have hlt := List.mem_range.mp hx
  have hplace : r.off + x - (r.off + o) = x - o := by omega
  have hold : k.dataAt n x = k.blocks.cell r.block (r.off + x) := by
    unfold dataAt
    rw [hr]
  have hnew : (k.laidIn r o (k.fileSize n) data).dataAt n x =
      (k.laidIn r o (k.fileSize n) data).blocks.cell r.block (r.off + x) := by
    unfold dataAt
    rw [hdata]
  rw [hnew, laidIn_cell, if_neg (by omega), hplace, hold]
  by_cases hin : o ≤ x ∧ x < o + data.length
  · rw [if_pos hin, if_pos ⟨rfl, by omega, by omega⟩]
  · rw [if_neg hin, if_neg (by omega)]

theorem laidIn_others {r : Ptr} {o : Nat} {data : List UInt8} (hr : k.fileData n = some r)
    (hin : o + data.length ≤ k.fileSize n) (ha : k.Apart n) (hm : m ∈ k.nodes.used) (hne : m ≠ n) :
    (k.laidIn r o (k.fileSize n) data).content m = k.content m := by
  refine content_congr rfl rfl fun q hq x hx => ?_
  have hapart := ha m hm hne r q hr hq
  rw [laidIn_cell, if_neg, if_neg]
  · rintro ⟨hb, h1, h2⟩
    have hsep := hapart hb
    omega
  · rintro ⟨hb, hy⟩
    have hsep := hapart hb
    omega

structure MadeRoom (k k' : Kernel) (n size : Nat) : Prop where
  kept : DataKept k'
  used : k'.nodes.used = k.nodes.used
  file : (k'.node n).file = (k.node n).file
  size : k'.fileSize n = max (k.fileSize n) size
  bytes : ∀ x < k.fileSize n, k'.dataAt n x = k.dataAt n x
  others : ∀ m ∈ k.nodes.used, m ≠ n → k'.content m = k.content m
  apart : k'.Apart n

theorem growFile_room {size : Nat} (h : DataKept k) (hn : n ∈ k.nodes.used)
    (hf : (k.node n).file = some f) (ha : k.Apart n) (ho : k.fileSize n < size → k.Owns n)
    (hg : k.growFile env f size = some k') : MadeRoom k k' n size := by
  rcases growFile_cases h hn hf hg with ⟨hle, rfl⟩ | ⟨hlt, b, content, hr, hbytes⟩
  · exact ⟨h, rfl, rfl, (Nat.max_eq_left hle).symm, fun _ _ => rfl, fun _ _ _ => rfl, ha⟩
  · have hown := ho hlt
    have hkept := hr.kept h hn hf (Nat.lt_succ_self size) hown
    obtain ⟨hdata, hsize⟩ := hr.data hf
    have hn' : n ∈ k'.nodes.used := by
      rw [hr.nodes]
      exact hn
    refine ⟨hkept, by rw [hr.nodes], by rw [hr.node], ?_, fun x hx => ?_, fun m hm hne => ?_,
      hkept.apart_owned hn' fun p hp => ?_⟩
    · rw [hsize, Nat.max_eq_right hlt.le]
    · cases hp : k.fileData n with
      | none =>
        rw [h.empty n hn hp] at hx
        exact absurd hx (Nat.not_lt_zero x)
      | some p =>
        unfold dataAt
        rw [hdata, hp]
        dsimp only
        rw [hr.cell, Nat.zero_add]
        exact hbytes p hp x hx
    · obtain ⟨hd, hs⟩ := hr.others h hn hf hm hne
      refine content_congr hd hs fun p hp x _ => ?_
      rw [hr.cells]
      intro he
      exact hr.fresh (he ▸ h.known_mem hm hp)
    · rw [hdata] at hp
      cases hp
      rfl

theorem Ensured.content (he : Ensured k q n f) (hm : m ∈ k.nodes.used) :
    q.content m = k.content m := by
  obtain ⟨hd, hs⟩ := he.data m (Or.inr hm)
  refine content_congr hd hs fun p _ x _ => ?_
  rw [he.blocks]

theorem Ensured.dataAt (he : Ensured k q n f) (x : Nat) : q.dataAt n x = k.dataAt n x := by
  unfold Kernel.dataAt
  rw [(he.data n (Or.inl rfl)).1, he.blocks]

/-- The write starts in the file or at its end, data that it gives back is the file's own and comes
back from `kfree`, and it lays its bytes over no other file. -/
structure WritesWithin (env : Env) (k : Kernel) (p : Nat) (i : Fin maxFds) (n : Nat)
    (data : List UInt8) : Prop where
  start : (k.entry p i).offset ≤ k.fileSize n
  own : k.fileSize n < (k.entry p i).offset + data.length → k.Owns n
  back : k.fileSize n < (k.entry p i).offset + data.length → k.freesContent env n = true
  apart : k.Apart n

theorem Ensured.apart (he : Ensured k q n f) (h : k.Apart n) : q.Apart n := by
  intro m hm hne r x hr hx hb
  rw [he.used] at hm
  rw [(he.data n (Or.inl rfl)).1] at hr
  rw [(he.data m (Or.inr hm)).1] at hx
  rw [(he.data n (Or.inl rfl)).2, (he.data m (Or.inr hm)).2]
  exact h m hm hne r x hr hx hb

def supplied (env : Env) (k : Kernel) (n size : Nat) : Bool :=
  match k.ensureFileStorage env n with
  | (some f, k) => (k.growFile env f size).isSome
  | (none, _) => false

theorem supplied_some {size : Nat} (h : k.supplied env n size = true) : ∃ f k1 k2,
    k.ensureFileStorage env n = (some f, k1) ∧ k1.growFile env f size = some k2 := by
  unfold supplied at h
  cases he : k.ensureFileStorage env n with
  | mk file k1 =>
    rw [he] at h
    cases file with
    | none => cases h
    | some f =>
      obtain ⟨k2, hg⟩ := Option.isSome_iff_exists.mp h
      exact ⟨f, k1, k2, rfl, hg⟩

theorem FileFd.sysWrite_eq {data : List UInt8} (h : FileFd k fd p i n) (hd : data ≠ []) :
    k.sysWrite env fd data = k.writeNode env p i n data := by
  unfold sysWrite
  rw [if_neg hd, h.opened]
  dsimp only
  rw [h.type, h.node, if_neg nofun, if_neg nofun]
  dsimp only
  rw [h.dev]
  exact if_neg (by rw [h.plain]; exact nofun)

/-- What a write to a plain file does to all files and offsets. -/
theorem FileFd.sysWrite_arrays {data : List UInt8} {r : Int} (h : DataKept k)
    (hfd : FileFd k fd p i n) (hw : k.WritesWithin env p i n data)
    (hm : k.supplied env n ((k.entry p i).offset + data.length) = true)
    (hs : k.sysWrite env fd data = some (r, k')) :
    DataKept k' ∧ k.arrays.step (p, i) n (.write data) = (⟨r, []⟩, k'.arrays) := by
  have hcontents : k.arrays.contents n = k.content n := if_pos hfd.used
  by_cases hd : data = []
  · subst hd
    cases hs
    have hstart : (k.arrays.offset (p, i)) ≤ (k.arrays.contents n).length := by
      rw [hcontents, content_length]
      exact hw.start
    refine ⟨h, ?_⟩
    unfold ArrayFiles.step
    dsimp only
    rw [ArrayFiles.stored_nil hstart, Function.update_eq_self, List.length_nil, Nat.add_zero,
      Function.update_eq_self]
    rfl
  rw [hfd.sysWrite_eq hd] at hs
  obtain ⟨f, k1, k2, he, hg⟩ := supplied_some hm
  have hens := ensureFileStorage_some h he
  unfold writeNode at hs
  dsimp only at hs
  rw [he] at hs
  dsimp only at hs
  rw [hg] at hs
  dsimp only at hs
  obtain ⟨-, hs⟩ := Option.ite_none_right_eq_some.mp hs
  have hn1 : n ∈ k1.nodes.used := hens.used ▸ hfd.used
  have hsize1 := (hens.data n (Or.inl rfl)).2
  have hroom := growFile_room hens.kept hn1 hens.file (hens.apart hw.apart)
    (fun hlt => hens.owns (hw.own (hsize1 ▸ hlt))) hg
  cases hq : (k2.files.cell f).privateData with
  | none =>
    rw [hq] at hs
    cases hs
  | some q =>
    rw [hq] at hs
    cases hs
    refine ⟨hroom.kept.congr rfl rfl rfl rfl, ?_⟩
    have hfile : (k2.node n).file = some f := hroom.file.trans hens.file
    have hq2 : k2.fileData n = some q := (fileData_eq hfile).trans hq
    have hprocs : k2.procSide = k.procSide := (growFile_procSide hg).trans hens.procs
    have hused : k2.nodes.used = k.nodes.used := hroom.used.trans hens.used
    have hsize : k2.fileSize n = max (k.fileSize n) ((k.entry p i).offset + data.length) := by
      rw [hroom.size, hsize1]
    have hold : ∀ m ∈ k.nodes.used, m ≠ n →
        (k2.laidIn q (k.entry p i).offset (k2.fileSize n) data).content m = k.content m := by
      intro m hm hne
      have hm1 : m ∈ k1.nodes.used := hens.used ▸ hm
      rw [laidIn_others hq2 (by omega) hroom.apart (hroom.used ▸ hm1) hne, hroom.others m hm1 hne,
        hens.content hm]
    have hnew : (k2.laidIn q (k.entry p i).offset (k2.fileSize n) data).content n =
        ArrayFiles.stored (k.content n) (k.entry p i).offset data := by
      rw [laidIn_content hq2]
      refine (ArrayFiles.stored_eq (by rw [content_length, hsize]) fun x hx => ?_).symm
      by_cases hin : (k.entry p i).offset ≤ x ∧ x < (k.entry p i).offset + data.length
      · rw [if_pos hin, if_pos hin]
      · -- the write starts in the file, so that the other bytes are old ones
        have hlt : x < k.fileSize n := by
          have hstart := hw.start
          omega
        rw [if_neg hin, if_neg hin, content_getD hlt, hroom.bytes x (hsize1 ▸ hlt), hens.dataAt]
    have hview : (k2.laidIn q (k.entry p i).offset (k2.fileSize n) data).arrays = _ :=
      arrays_update hused hprocs hfd.used hold
    have hlast : (k2.files.cell f).size = k2.fileSize n := (fileSize_eq hfile).symm
    change _ = (_, ((k2.laidIn q (k.entry p i).offset (k2.files.cell f).size data).setEntry
      p i _).arrays)
    rw [hlast, arrays_setEntry, hview, hnew]
    unfold ArrayFiles.step
    dsimp only
    rw [hcontents]
    rfl

end write

section read

theorem FileFd.fetched (h : FileFd k fd p i n) (len : Nat) :
    ((k.arrays.contents n).drop (k.entry p i).offset).take len =
      (List.range (min len (k.fileSize n - (k.entry p i).offset))).map fun x =>
        k.dataAt n ((k.entry p i).offset + x) := by
  have hcontents : k.arrays.contents n = k.content n := if_pos h.used
  rw [hcontents]
  exact ArrayFiles.fetched_eq

theorem FileFd.sysRead_cases {len : Nat} {r : Int} {bytes : List UInt8} (hfd : FileFd k fd p i n)
    (h0 : fd ≠ 0) (hs : k.sysRead env fd len = some (r, bytes, k')) :
    (k.fileData n = none ∨ k.fileSize n ≤ (k.entry p i).offset) ∧ r = 0 ∧ bytes = [] ∧ k' = k ∨
      ∃ q m, k.fileData n = some q ∧ m = min len (k.fileSize n - (k.entry p i).offset) ∧ r = m ∧
        bytes = k.bytesAt ⟨q.block, q.off + (k.entry p i).offset⟩ m ∧
        ∃ e, e.offset = (k.entry p i).offset + m ∧ k' = k.setEntry p i e := by
  unfold sysRead at hs
  rw [if_neg h0, hfd.opened] at hs
  dsimp only at hs
  rw [hfd.node, hfd.type] at hs
  simp only [Option.isNone_some, Bool.false_eq_true, if_false, reduceCtorEq, hfd.dev, hfd.plain,
    Option.any_none] at hs
  cases hf : (k.node n).file with
  | none =>
    rw [hf] at hs
    cases hs
    refine Or.inl ⟨Or.inl ?_, rfl, rfl, rfl⟩
    unfold fileData
    rw [hf]
    rfl
  | some f =>
    rw [hf] at hs
    dsimp only at hs
    cases hq : (k.files.cell f).privateData with
    | none =>
      rw [hq] at hs
      cases hs
      exact Or.inl ⟨Or.inl ((fileData_eq hf).trans hq), rfl, rfl, rfl⟩
    | some q =>
      rw [hq] at hs
      dsimp only at hs
      rw [← fileSize_eq hf] at hs
      by_cases hle : k.fileSize n ≤ (k.entry p i).offset
      · rw [if_pos hle] at hs
        cases hs
        exact Or.inl ⟨Or.inr hle, rfl, rfl, rfl⟩
      · rw [if_neg hle] at hs
        cases hs
        exact Or.inr ⟨q, _, (fileData_eq hf).trans hq, rfl, rfl, rfl, _, rfl, rfl⟩

theorem FileFd.sysRead_arrays {len : Nat} {r : Int} {bytes : List UInt8} (h : DataKept k)
    (hfd : FileFd k fd p i n) (h0 : fd ≠ 0) (hs : k.sysRead env fd len = some (r, bytes, k')) :
    DataKept k' ∧ k.arrays.step (p, i) n (.read len) = (⟨r, bytes⟩, k'.arrays) := by
  rcases hfd.sysRead_cases h0 hs with ⟨hnone, rfl, rfl, rfl⟩ | ⟨q, m, hq, hm, rfl, rfl, e, he, rfl⟩
  · have hle : k'.fileSize n ≤ (k'.entry p i).offset := by
      refine hnone.elim (fun hd => ?_) id
      rw [h.empty n hfd.used hd]
      exact Nat.zero_le _
    have hnil : ((k'.arrays.contents n).drop (k'.arrays.offset (p, i))).take len = [] := by
      refine (hfd.fetched len).trans ?_
      rw [Nat.sub_eq_zero_of_le hle, Nat.min_zero, List.range_zero, List.map_nil]
    refine ⟨h, ?_⟩
    unfold ArrayFiles.step
    dsimp only
    rw [hnil, List.length_nil, Nat.add_zero, Function.update_eq_self]
    rfl
  · have hbytes : ((k.arrays.contents n).drop (k.arrays.offset (p, i))).take len =
        k.bytesAt ⟨q.block, q.off + (k.entry p i).offset⟩ m := by
      rw [hm]
      refine (hfd.fetched len).trans (List.map_congr_left fun x _ => ?_)
      unfold dataAt
      rw [hq]
      dsimp only
      rw [Nat.add_assoc]
    have hlength : (k.bytesAt ⟨q.block, q.off + (k.entry p i).offset⟩ m).length = m := by
      unfold bytesAt
      rw [List.length_map, List.length_range]
    refine ⟨h.congr rfl rfl rfl rfl, ?_⟩
    rw [arrays_setEntry, he]
    unfold ArrayFiles.step
    dsimp only
    rw [hbytes, hlength]
    rfl

end read

section seek

theorem FileFd.sysLseek_arrays {offset : Int} {whence : Nat} {r : Int} (h : DataKept k)
    (hfd : FileFd k fd p i n) (hs : k.sysLseek env fd offset whence = (r, k')) :
    DataKept k' ∧ k.arrays.step (p, i) n (.seek offset whence) = (⟨r, []⟩, k'.arrays) := by
  have hlength : (k.arrays.contents n).length = k.fileSize n := by
    have hcontents : k.arrays.contents n = k.content n := if_pos hfd.used
    rw [hcontents, content_length]
  have hsize : (((k.entry p i).node.bind fun n => (k.node n).file).map fun f =>
      (k.files.cell f).size).getD 0 = k.fileSize n := by
    rw [hfd.node]
    rfl
  have hpipe : (k.entry p i).type ≠ .pipe := by
    rw [hfd.type]
    exact nofun
  have hnode : (if (k.entry p i).node.isNone then k.fsOf (k.entry p i) .lseek else none) =
      none := by
    rw [hfd.node]
    rfl
  unfold sysLseek at hs
  rw [hfd.opened] at hs
  dsimp only at hs
  rw [if_neg hpipe, hnode, hsize] at hs
  dsimp only at hs
  unfold ArrayFiles.step
  dsimp only
  have hoffset : k.arrays.offset (p, i) = (k.entry p i).offset := rfl
  rw [hlength, hoffset]
  cases hb : ([0, ((k.entry p i).offset : Int), (k.fileSize n : Int)] : List Int)[whence]? with
  | none =>
    rw [hb] at hs
    cases hs
    exact ⟨h, rfl⟩
  | some b =>
    rw [hb] at hs
    dsimp only at hs ⊢
    by_cases hneg : b + offset < 0
    · rw [if_pos hneg] at hs ⊢
      cases hs
      exact ⟨h, rfl⟩
    · rw [if_neg hneg] at hs ⊢
      cases hs
      rw [arrays_setEntry]
      exact ⟨h.congr rfl rfl rfl rfl, rfl⟩

end seek

section runs

def arrayOp : Event → Option (Int × ArrayFiles.Op UInt8)
  | .write fd data => some (fd, .write data)
  | .read fd len => some (fd, .read len)
  | .lseek fd offset whence => some (fd, .seek offset whence)
  | _ => none

def fed (env : Env) (k : Kernel) (p : Nat) (i : Fin maxFds) (n : Nat) : ArrayFiles.Op UInt8 → Bool
  | .write data => k.supplied env n ((k.entry p i).offset + data.length)
  | .read _ => true
  | .seek _ _ => true

/-- The condition on a call: a write stays within its file, and a read is not from descriptor 0,
which is the terminal whatever it stands for. -/
def StaysWithin (env : Env) (k : Kernel) (fd : Int) (p : Nat) (i : Fin maxFds) (n : Nat) :
    ArrayFiles.Op UInt8 → Prop
  | .write data => k.WritesWithin env p i n data
  | .read _ => fd ≠ 0
  | .seek _ _ => True

theorem FileFd.step_arrays {ev : Event} {op : ArrayFiles.Op UInt8} {r : Reply} (h : DataKept k)
    (hev : arrayOp ev = some (fd, op)) (hfd : FileFd k fd p i n)
    (hm : k.fed env p i n op = true) (hok : StaysWithin env k fd p i n op)
    (hs : k.step env ev = some (r, k')) :
    DataKept k' ∧ k.arrays.step (p, i) n op = (⟨r.value, r.bytes⟩, k'.arrays) := by
  cases ev with
  | write fd' data =>
    cases hev
    obtain ⟨⟨x, k1⟩, hx, he⟩ := Option.map_eq_some_iff.mp hs
    cases he
    exact hfd.sysWrite_arrays h hok hm hx
  | read fd' len =>
    cases hev
    obtain ⟨⟨x, bytes, k1⟩, hx, he⟩ := Option.map_eq_some_iff.mp hs
    cases he
    exact hfd.sysRead_arrays h hok hx
  | lseek fd' offset whence =>
    cases hev
    cases hs
    exact hfd.sysLseek_arrays h rfl
  | _ => cases hev

structure FilesKept (k k' : Kernel) : Prop where
  nodes : k'.nodes = k.nodes
  files : k'.files = k.files
  blocks : k'.blocks = k.blocks
  blockLen : k'.blockLen = k.blockLen
  entry : ∀ p i, k'.entry p i = k.entry p i

/-- A run of calls on plain files with its outcomes, each call as `ok` demands. What else happens in
between leaves files and descriptors alone. -/
inductive ArrayRun
    (ok : Env → Kernel → Int → Nat → Fin maxFds → Nat → ArrayFiles.Op UInt8 → Prop) :
    Kernel → List ((Nat × Fin maxFds) × Nat × ArrayFiles.Op UInt8) →
      List (ArrayFiles.Outcome UInt8) → Kernel → Prop
  | done {k : Kernel} : ArrayRun ok k [] [] k
  | call {env : Env} {k k1 k' : Kernel} {ev : Event} {fd : Int} {op : ArrayFiles.Op UInt8} {p : Nat}
      {i : Fin maxFds} {n : Nat} {r : Reply}
      {calls : List ((Nat × Fin maxFds) × Nat × ArrayFiles.Op UInt8)}
      {outs : List (ArrayFiles.Outcome UInt8)} (hev : arrayOp ev = some (fd, op))
      (hfd : FileFd k fd p i n) (hm : k.fed env p i n op = true) (hok : ok env k fd p i n op)
      (hs : k.step env ev = some (r, k1)) (hr : ArrayRun ok k1 calls outs k') :
      ArrayRun ok k (((p, i), n, op) :: calls) (⟨r.value, r.bytes⟩ :: outs) k'
  | between {k k1 k' : Kernel} {calls : List ((Nat × Fin maxFds) × Nat × ArrayFiles.Op UInt8)}
      {outs : List (ArrayFiles.Outcome UInt8)} (he : FilesKept k k1)
      (hr : ArrayRun ok k1 calls outs k') :
      ArrayRun ok k calls outs k'

theorem FilesKept.arrays (h : FilesKept k k') : k'.arrays = k.arrays := by
  have hnode : ∀ m, k'.node m = k.node m := by
    intro m
    unfold node
    rw [h.nodes]
  have hcontent : ∀ m, k'.content m = k.content m := by
    intro m
    refine content_congr ?_ ?_ fun _ _ _ _ => by rw [h.blocks]
    · unfold fileData
      rw [hnode, h.files]
    · unfold fileSize
      rw [hnode, h.files]
  apply ArrayFiles.ext
  · funext m
    change (if m ∈ k'.nodes.used then k'.content m else []) = _
    rw [hcontent, h.nodes]
    rfl
  · funext d
    exact congrArg FdEntry.offset (h.entry d.1 d.2)

theorem ArrayRun.arrays {calls : List ((Nat × Fin maxFds) × Nat × ArrayFiles.Op UInt8)}
    {outs : List (ArrayFiles.Outcome UInt8)} (hr : ArrayRun StaysWithin k calls outs k')
    (h : DataKept k) : DataKept k' ∧ k.arrays.run calls = (outs, k'.arrays) := by
  induction hr with
  | done => exact ⟨h, rfl⟩
  | call hev hfd hm hok hs _ ih =>
    obtain ⟨h1, hstep⟩ := hfd.step_arrays h hev hm hok hs
    obtain ⟨h2, hrun⟩ := ih h1
    refine ⟨h2, ?_⟩
    rw [ArrayFiles.run, hstep]
    dsimp only
    rw [hrun]
  | between he _ ih =>
    rw [← he.arrays]
    exact ih (h.congr he.nodes he.files (by rw [he.blocks]) he.blockLen)

instance : Decidable (FileFd k fd p i n) :=
  decidable_of_iff (k.openFd fd = some (p, i) ∧ (k.entry p i).type = .file ∧
    (k.entry p i).node = some n ∧ n ∈ k.nodes.used ∧ (k.node n).directory = false ∧
      (k.node n).dev.isNone = true)
    ⟨fun ⟨h1, h2, h3, h4, h5, h6⟩ => ⟨h1, h2, h3, h4, h5, Option.isNone_iff_eq_none.mp h6⟩,
      fun h => ⟨h.opened, h.type, h.node, h.used, h.plain, Option.isNone_iff_eq_none.mpr h.dev⟩⟩

end runs

end LosTacOS.Os.Kernel
