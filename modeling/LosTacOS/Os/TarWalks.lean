import LosTacOS.Lib.Loop
import LosTacOS.Os.Tarfs

/-! The loops over the headers of the root archive, with the pointers that the code goes on with.
`build_index`, `mount_vfs` and `list` are one loop that does different things with a header. -/
namespace LosTacOS.Os

/-- What `tarfs::mount` keeps, and the memory that it points into. -/
structure Archive where
  memory : UInt64 → UInt8
  tarStart : UInt64
  tarSize : UInt64

structure TarEntry where
  name : List Char
  data : UInt64
  size : UInt64
  directory : Bool
deriving DecidableEq

def maxTarFiles : Nat := 512

namespace Archive

section loops

variable (a : Archive) {σ : Type}

def bytes (ptr : UInt64) (i : Nat) : UInt8 := a.memory (ptr + UInt64.ofNat i)

def stop : UInt64 := a.tarStart + a.tarSize

def sizeAt (ptr : UInt64) : UInt64 := headerSize (a.bytes ptr) 0

def typeflag (ptr : UInt64) : UInt8 := a.bytes ptr 156

def step (size : UInt64) : UInt64 := 512 + (size + 511) / 512 * 512

/-- The loop: what is done with a header changes `s`, or is a fault. -/
def walk (entry : UInt64 → σ → Option σ) : UInt64 × σ → Turn (UInt64 × σ) (Option σ)
  | (ptr, s) =>
    if ptr < a.stop then
      if emptyBlock (a.bytes ptr) 0 then .done (some s)
      else
        match entry ptr s with
        | some s => .again (ptr + step (a.sizeAt ptr), s)
        | none => .done none
    else .done (some s)

/-- What `build_index` notes of a header. The name is copied to the first zero byte of the memory
behind it, over the end of its field. -/
def indexEntry (ptr : UInt64) : TarEntry :=
  { name := field (a.bytes ptr) 0 255
    data := ptr + 512
    size := a.sizeAt ptr
    directory := a.typeflag ptr = 53 }

def buildIndex : UInt64 × List TarEntry → Turn (UInt64 × List TarEntry) (Option (List TarEntry)) :=
  a.walk fun ptr entries =>
    some (if entries.length < maxTarFiles then entries ++ [a.indexEntry ptr] else entries)

/-- `mount_vfs`; the data of files is `block`, counted from `tar_start`. -/
def mountLoop (env : Env) (block : Nat) : UInt64 × Kernel → Turn (UInt64 × Kernel) (Option Kernel) :=
  a.walk fun ptr k => k.mountEntry env (a.bytes a.tarStart) block (ptr - a.tarStart).toNat

/-- `list`: of each header it prints the kind and the name, which is read where it lies. -/
def list : UInt64 × List (Bool × UInt64) →
    Turn (UInt64 × List (Bool × UInt64)) (Option (List (Bool × UInt64))) :=
  a.walk fun ptr lines => some (lines ++ [(decide (a.typeflag ptr = 53), ptr)])

def IsHeader (p : Nat) : Prop :=
  p < a.stop.toNat ∧ emptyBlock (a.bytes (UInt64.ofNat p)) 0 = false

/-- A header and the blocks of its data. From 2^64 - 511 on the number of blocks wraps to 0. -/
def span (size : UInt64) : Nat :=
  if size.toNat ≤ 2 ^ 64 - 512 then 512 + (size.toNat + 511) / 512 * 512 else 512

inductive Chained : Nat → Prop
  | first : Chained a.tarStart.toNat
  | next {p : Nat} (h : Chained p) (hp : a.IsHeader p) :
    Chained (p + span (a.sizeAt (UInt64.ofNat p)))

def InSpace : Prop :=
  ∀ p, a.Chained p → a.IsHeader p → p + span (a.sizeAt (UInt64.ofNat p)) < 2 ^ 64

structure Forward {ρ : Type} (loop : UInt64 × σ → Turn (UInt64 × σ) ρ) (s : σ) : Prop where
  ends : Turn.Ends loop (a.tarStart, s)
  up : ∀ t u, Relation.ReflTransGen (Turn.Hop loop) (a.tarStart, s) t → Turn.Hop loop t u → t.1 < u.1

structure WalksForward (env : Env) (block : Nat) (k : Kernel) : Prop where
  buildIndex : a.Forward a.buildIndex []
  mountVfs : a.tarStart ≠ 0 → a.Forward (a.mountLoop env block) k
  list : a.tarStart ≠ 0 → a.Forward a.list []

end loops

section steps

variable {a : Archive} {σ : Type} {entry : UInt64 → σ → Option σ} {s s' : σ} {ptr : UInt64}
  {t u : UInt64 × σ}

theorem span_pos (size : UInt64) : 0 < span size := by
  unfold span
  split
  · omega
  · omega

theorem step_toNat (size : UInt64) : (step size).toNat = span size % 2 ^ 64 := by
  have hsize := size.toNat_lt
  have h512 : (512 : UInt64).toNat = 512 := rfl
  have h511 : (511 : UInt64).toNat = 511 := rfl
  unfold step span
  rw [UInt64.toNat_add, UInt64.toNat_mul, UInt64.toNat_div, UInt64.toNat_add, h512, h511]
  split
  · omega
  · omega

/-- The pointer moves up unless it leaves the address space. -/
theorem lt_step_iff (ptr size : UInt64) :
    ptr < ptr + step size ↔ ptr.toNat + span size < 2 ^ 64 := by
  have hptr := ptr.toNat_lt
  have hsize := size.toNat_lt
  have hpos := span_pos size
  have hle : span size ≤ 2 ^ 64 := by
    unfold span
    split
    · omega
    · omega
  rw [UInt64.lt_iff_toNat_lt, UInt64.toNat_add, step_toNat]
  omega

theorem toNat_step {size : UInt64} (h : ptr.toNat + span size < 2 ^ 64) :
    (ptr + step size).toNat = ptr.toNat + span size := by
  rw [UInt64.toNat_add, step_toNat]
  omega

theorem isHeader_ptr :
    a.IsHeader ptr.toNat ↔ ptr < a.stop ∧ emptyBlock (a.bytes ptr) 0 = false := by
  unfold IsHeader
  rw [UInt64.ofNat_toNat, UInt64.lt_iff_toNat_lt]

/-- One round goes on exactly from a header with which nothing faults. -/
theorem walk_hop_iff : Turn.Hop (a.walk entry) (ptr, s) t ↔
    a.IsHeader ptr.toNat ∧ ∃ s', entry ptr s = some s' ∧ t = (ptr + step (a.sizeAt ptr), s') := by
  rw [isHeader_ptr, Turn.Hop, walk]
  by_cases hlt : ptr < a.stop
  · rw [if_pos hlt]
    cases hb : emptyBlock (a.bytes ptr) 0 with
    | true =>
      constructor
      · intro h
        cases h
      · intro h
        exact absurd h.1.2 (by simp)
    | false =>
      rw [if_neg (by simp)]
      cases he : entry ptr s with
      | none =>
        constructor
        · intro h
          cases h
        · rintro ⟨-, s', h, -⟩
          cases h
      | some s' =>
        constructor
        · intro h
          cases h
          exact ⟨⟨hlt, rfl⟩, s', rfl, rfl⟩
        · rintro ⟨-, x, hx, rfl⟩
          cases hx
          rfl
  · rw [if_neg hlt]
    constructor
    · intro h
      cases h
    · intro h
      exact absurd h.1.1 hlt

theorem walk_end (h : ¬ a.IsHeader ptr.toNat) : a.walk entry (ptr, s) = .done (some s) := by
  rw [isHeader_ptr] at h
  rw [walk]
  by_cases hlt : ptr < a.stop
  · have hb : emptyBlock (a.bytes ptr) 0 = true := by simpa [hlt] using h
    rw [if_pos hlt, if_pos hb]
  · rw [if_neg hlt]

theorem walk_fault (h : a.IsHeader ptr.toNat) (he : entry ptr s = none) :
    a.walk entry (ptr, s) = .done none := by
  obtain ⟨hlt, hb⟩ := isHeader_ptr.mp h
  rw [walk, if_pos hlt, hb, if_neg (by simp), he]

end steps

section forward

variable {a : Archive} {σ : Type} {entry : UInt64 → σ → Option σ} {s : σ} {t u : UInt64 × σ}

/-- As long as nothing leaves the address space the pointer is at the headers one after the other. -/
theorem InSpace.chained (h : a.InSpace)
    (hr : Relation.ReflTransGen (Turn.Hop (a.walk entry)) (a.tarStart, s) t) :
    a.Chained t.1.toNat := by
  induction hr with
  | refl => exact .first
  | tail _ hop ih =>
    rename_i t u _
    obtain ⟨hp, s', -, rfl⟩ := walk_hop_iff.mp hop
    have hin := h _ ih hp
    rw [UInt64.ofNat_toNat] at hin
    have hnext := ih.next hp
    rw [UInt64.ofNat_toNat] at hnext
    rw [toNat_step hin]
    exact hnext

theorem InSpace.up (h : a.InSpace)
    (hr : Relation.ReflTransGen (Turn.Hop (a.walk entry)) (a.tarStart, s) t)
    (hop : Turn.Hop (a.walk entry) t u) : t.1 < u.1 := by
  obtain ⟨hp, s', -, rfl⟩ := walk_hop_iff.mp hop
  have hin := h _ (h.chained hr) hp
  rw [UInt64.ofNat_toNat] at hin
  exact (lt_step_iff ..).mpr hin

/-- A loop over the headers ends when each of its rounds moves the pointer up. -/
theorem ends_of_up (h : ∀ t u, Relation.ReflTransGen (Turn.Hop (a.walk entry)) (a.tarStart, s) t →
    Turn.Hop (a.walk entry) t u → t.1 < u.1) : Turn.Ends (a.walk entry) (a.tarStart, s) := by
  apply Turn.ends_of_isSome (n := 2 ^ 64)
  apply Turn.loopFor_isSome (Relation.ReflTransGen (Turn.Hop (a.walk entry)) (a.tarStart, s))
    (fun t => 2 ^ 64 - 1 - t.1.toNat)
  · intro t u ht hop
    have hlt := UInt64.lt_iff_toNat_lt.mp (h t u ht hop)
    have hu := u.1.toNat_lt
    exact ⟨ht.tail hop, by omega⟩
  · exact .refl
  · omega

theorem InSpace.forward (h : a.InSpace) : a.Forward (a.walk entry) s :=
  ⟨ends_of_up fun _ _ => h.up, fun _ _ => h.up⟩

theorem Forward.visits (h : a.Forward (a.walk entry) s) (hentry : ∀ ptr s, (entry ptr s).isSome) {p : Nat}
    (hp : a.Chained p) :
    ∃ t, Relation.ReflTransGen (Turn.Hop (a.walk entry)) (a.tarStart, s) t ∧ t.1.toNat = p := by
  induction hp with
  | first => exact ⟨_, .refl, rfl⟩
  | next _ hhead ih =>
    obtain ⟨⟨ptr, s'⟩, ht, rfl⟩ := ih
    obtain ⟨s'', hs⟩ := Option.isSome_iff_exists.mp (hentry ptr s')
    have hop := walk_hop_iff.mpr ⟨hhead, s'', hs, rfl⟩
    refine ⟨_, ht.tail hop, ?_⟩
    rw [UInt64.ofNat_toNat]
    exact toNat_step ((lt_step_iff ..).mp (h.up _ _ ht hop))

theorem Forward.inSpace (h : a.Forward (a.walk entry) s) (hentry : ∀ ptr s, (entry ptr s).isSome) :
    a.InSpace := by
  intro p hp hhead
  obtain ⟨⟨ptr, s'⟩, ht, rfl⟩ := h.visits hentry hp
  obtain ⟨s'', hs⟩ := Option.isSome_iff_exists.mp (hentry ptr s')
  rw [UInt64.ofNat_toNat]
  exact (lt_step_iff ..).mp (h.up _ _ ht (walk_hop_iff.mpr ⟨hhead, s'', hs, rfl⟩))

/-- The walks over the headers end and go forward exactly if no entry reaches over the end of the
address space. -/
theorem walks_forward_iff (a : Archive) (env : Env) (block : Nat) (k : Kernel) :
    a.WalksForward env block k ↔ a.InSpace := by
  constructor
  · intro h
    exact h.buildIndex.inSpace fun _ _ => rfl
  · intro h
    exact ⟨h.forward, fun _ => h.forward, fun _ => h.forward⟩

end forward

section loader

variable {a : Archive} {env : Env} {block : Nat} {ptr : UInt64} {k : Kernel} {r : Option Kernel}

/-- A byte behind a place, counted from the start of the archive. -/
theorem bytes_start (a : Archive) (ptr : UInt64) (i : Nat) :
    a.bytes a.tarStart ((ptr - a.tarStart).toNat + i) = a.bytes ptr i := by
  unfold bytes
  rw [UInt64.ofNat_add, UInt64.ofNat_toNat, ← UInt64.add_assoc, UInt64.add_comm a.tarStart,
    UInt64.sub_add_cancel]

theorem emptyBlock_start :
    emptyBlock (a.bytes a.tarStart) (ptr - a.tarStart).toNat = emptyBlock (a.bytes ptr) 0 := by
  unfold emptyBlock
  congr 1
  funext i
  rw [bytes_start, Nat.zero_add]

theorem headerSize_start :
    headerSize (a.bytes a.tarStart) (ptr - a.tarStart).toNat = a.sizeAt ptr := by
  unfold sizeAt headerSize
  congr 1
  apply List.map_congr_left
  intro i _
  rw [Nat.add_assoc, bytes_start, Nat.zero_add]

theorem entryLength_start :
    entryLength (a.bytes a.tarStart) (ptr - a.tarStart).toNat = (step (a.sizeAt ptr)).toNat := by
  unfold entryLength step
  rw [headerSize_start]

/-- The loader of the tree, which counts from the start of the archive, comes to what this loop
comes to. -/
theorem mountVfs_eq (h : a.InSpace) (hfit : a.tarStart.toNat + a.tarSize.toNat < 2 ^ 64) {n : Nat}
    (hp : a.Chained ptr.toNat) (hge : a.tarStart ≤ ptr)
    (hr : loopFor (a.mountLoop env block) n (ptr, k) = some r) :
    Kernel.mountVfs env (a.bytes a.tarStart) a.tarSize.toNat block n (ptr - a.tarStart).toNat k =
      r := by
  induction n generalizing ptr k with
  | zero => cases hr
  | succ n ih =>
    have hle := UInt64.le_iff_toNat_le.mp hge
    have hsub : (ptr - a.tarStart).toNat = ptr.toNat - a.tarStart.toNat :=
      UInt64.toNat_sub_of_le _ _ hge
    have hstop : ptr < a.stop ↔ (ptr - a.tarStart).toNat < a.tarSize.toNat := by
      unfold stop
      rw [UInt64.lt_iff_toNat_lt, UInt64.toNat_add, hsub]
      omega
    rw [Kernel.mountVfs]
    by_cases hlt : ptr < a.stop
    · rw [if_pos (hstop.mp hlt), emptyBlock_start]
      cases hb : emptyBlock (a.bytes ptr) 0 with
      | true =>
        have hnot : ¬ a.IsHeader ptr.toNat := by
          rw [isHeader_ptr, hb]
          exact fun hc => absurd hc.2 (by decide)
        rw [mountLoop, Turn.loopFor_done (walk_end hnot)] at hr
        cases hr
        rfl
      | false =>
        rw [if_neg (by simp)]
        have hhead := isHeader_ptr.mpr ⟨hlt, hb⟩
        cases he : k.mountEntry env (a.bytes a.tarStart) block (ptr - a.tarStart).toNat with
        | none =>
          rw [mountLoop, Turn.loopFor_done (walk_fault hhead he)] at hr
          cases hr
          rfl
        | some k1 =>
          have hagain : Turn.Hop (a.mountLoop env block) (ptr, k) (ptr + step (a.sizeAt ptr), k1) :=
            walk_hop_iff.mpr ⟨hhead, k1, he, rfl⟩
          rw [Turn.loopFor_again hagain] at hr
          have hin := h _ hp hhead
          have hnext := hp.next hhead
          rw [UInt64.ofNat_toNat] at hin hnext
          have hto := toNat_step hin
          have hge' : a.tarStart ≤ ptr + step (a.sizeAt ptr) := by
            rw [UInt64.le_iff_toNat_le, hto]
            omega
          have hlen : (ptr - a.tarStart).toNat +
              entryLength (a.bytes a.tarStart) (ptr - a.tarStart).toNat =
              (ptr + step (a.sizeAt ptr) - a.tarStart).toNat := by
            rw [entryLength_start, step_toNat, hsub, UInt64.toNat_sub_of_le _ _ hge', hto]
            omega
          rw [Option.bind_eq_bind, Option.bind_some, hlen]
          exact ih (hto ▸ hnext) hge' hr
    · rw [if_neg (fun hc => hlt (hstop.mpr hc))]
      have hnot : ¬ a.IsHeader ptr.toNat := fun hc => hlt (isHeader_ptr.mp hc).1
      rw [mountLoop, Turn.loopFor_done (walk_end hnot)] at hr
      cases hr
      rfl

end loader

section stuck

variable {a : Archive} {σ : Type} {entry : UInt64 → σ → Option σ}

theorem stuck (hp : a.IsHeader a.tarStart.toNat) (hstep : step (a.sizeAt a.tarStart) = 0)
    (hentry : ∀ s, (entry a.tarStart s).isSome) (s : σ) :
    ¬ Turn.Ends (a.walk entry) (a.tarStart, s) := by
  have hnone : ∀ n s, loopFor (a.walk entry) n (a.tarStart, s) = none := by
    intro n
    induction n with
    | zero => exact fun _ => rfl
    | succ n ih =>
      intro s
      obtain ⟨s', hs⟩ := Option.isSome_iff_exists.mp (hentry s)
      have hop := walk_hop_iff.mpr ⟨hp, s', hs, rfl⟩
      rw [hstep, UInt64.add_zero] at hop
      rw [Turn.loopFor_again hop]
      exact ih s'
  rintro ⟨r, n, hn⟩
  rw [hnone] at hn
  cases hn

/-- One header whose size field holds the bytes 0xF0 and `0`, which are read as -512. -/
def backArchive : Archive where
  memory p :=
    if p = 0x100000 then 97
    else if p = 0x10007C then 0xF0
    else if p = 0x10007D then 48
    else if p = 0x10009C then 120
    else 0
  tarStart := 0x100000
  tarSize := 1024

theorem backArchive_header : backArchive.IsHeader backArchive.tarStart.toNat :=
  isHeader_ptr.mpr ⟨by decide, by decide +kernel⟩

theorem backArchive_step : step (backArchive.sizeAt backArchive.tarStart) = 0 := by decide +kernel

theorem mountEntry_other {env : Env} {k : Kernel} {image : Nat → UInt8} {block hdr : Nat}
    (h : image (hdr + 156) ∉ [50, 53, 48, 0]) : k.mountEntry env image block hdr = some k := by
  simp only [List.mem_cons, List.not_mem_nil, or_false, not_or] at h
  obtain ⟨h2, h5, h0, hnul⟩ := h
  unfold Kernel.mountEntry
  dsimp only
  rw [if_neg h2]
  rw [if_neg h5, if_neg (not_or.mpr ⟨h0, hnul⟩), ite_self]

/-- None of the three loops ends. -/
theorem backArchive_hangs : ¬ Turn.Ends backArchive.buildIndex (backArchive.tarStart, []) ∧
    (¬ ∃ env block k, Turn.Ends (backArchive.mountLoop env block) (backArchive.tarStart, k)) ∧
    ¬ Turn.Ends backArchive.list (backArchive.tarStart, []) := by
  have hstuck : ∀ {σ : Type} {entry : UInt64 → σ → Option σ},
      (∀ s, (entry backArchive.tarStart s).isSome) → ∀ s,
        ¬ Turn.Ends (backArchive.walk entry) (backArchive.tarStart, s) :=
    stuck backArchive_header backArchive_step
  refine ⟨hstuck (fun _ => rfl) _, ?_, hstuck (fun _ => rfl) _⟩
  rintro ⟨env, block, k, h⟩
  refine hstuck (fun k => ?_) k h
  rw [mountEntry_other (by decide +kernel)]
  rfl

end stuck

end Archive

end LosTacOS.Os
