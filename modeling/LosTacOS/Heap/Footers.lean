import LosTacOS.Heap.Refine

/-! What `kfree` does with a footer that the owner of a block has overwritten: `prev_block` takes
the word for a size, and the flag of the block that it leads to is read before anything is known
about that block. -/
namespace LosTacOS.Heap
open ByteMemory

/-- The block that `prev_block` finds with `w` in front of the block at `b`. -/
def prevPtr (b w : Nat) : Nat := wrap (b - sizeofBlock + (2^64 - w))

section words

variable {b w : Nat}

theorem prevPtr_zero (hb : heapStart < b) (hu : b < heapStart + heapSize) :
    prevPtr b 0 = b - sizeofBlock := by
  unfold prevPtr wrap
  simp only [heapStart, heapSize, sizeofBlock] at *
  omega

/-- An address of the heap below the block leads to low memory. -/
theorem prevPtr_below (hu : b < heapStart + heapSize) (hl : heapStart ≤ w)
    (hw : w + sizeofBlock ≤ b) : prevPtr b w < heapSize := by
  unfold prevPtr wrap
  simp only [heapStart, heapSize, sizeofBlock] at *
  omega

/-- An address of the heap above the block leads to the last 16 MiB of the address space. -/
theorem prevPtr_above (hb : heapStart < b) (hl : b ≤ w) (hw : w < heapStart + heapSize) :
    2^64 - heapSize - sizeofBlock ≤ prevPtr b w ∧ prevPtr b w + sizeofBlock ≤ 2^64 := by
  unfold prevPtr wrap
  simp only [heapStart, heapSize, sizeofBlock] at *
  omega

end words

theorem prevBlock_word {b : Nat} (hb : heapStart < b) (h : HeapState) :
    prevBlock b h = some (prevPtr b (loadLE h.mem (b - 8) 8), h.touch (b - 8) 8) := by
  rw [prevBlock, if_neg (by omega)]
  rfl

section logged

variable {α β : Type}

def Logs (x : HeapM α) : Prop :=
  ∀ h a h', x h = some (a, h') → h.touched ⊆ h'.touched

theorem Logs.pure (a : α) : Logs (pure a : HeapM α) := by
  intro h c h' hr
  cases hr
  exact List.Subset.refl _

theorem Logs.bind {x : HeapM α} {f : α → HeapM β} (hx : Logs x) (hf : ∀ a, Logs (f a)) :
    Logs (x >>= f) := by
  intro h c h' hr
  obtain ⟨⟨a, h1⟩, hx1, hf1⟩ := Option.bind_eq_some_iff.mp hr
  exact fun t ht => hf a h1 c h' hf1 (hx h a h1 hx1 ht)

theorem Logs.ite {p : Prop} [Decidable p] {x y : HeapM α} (hx : Logs x) (hy : Logs y) :
    Logs (if p then x else y) := by
  split
  · exact hx
  · exact hy

theorem Logs.get : Logs (get : HeapM HeapState) := by
  intro h c h' hr
  cases hr
  exact List.Subset.refl _

theorem Logs.load (a n : Nat) : Logs (load a n) := by
  intro h c h' hr
  cases hr
  exact List.subset_cons_self _ _

theorem Logs.store (a n v : Nat) : Logs (store a n v) := by
  intro h c h' hr
  cases hr
  exact List.subset_cons_self _ _

theorem Logs.setCursor (b : Nat) : Logs (setCursor b) := by
  intro h c h' hr
  cases hr
  exact List.Subset.refl _

theorem Logs.getFree (b : Nat) : Logs (getFree b) := (Logs.load _ _).bind fun _ => .pure _

theorem Logs.searchPrev (block prev fuel tmp : Nat) : Logs (searchPrev block prev fuel tmp) := by
  induction fuel generalizing tmp with
  | zero =>
    intro h c h' hr
    cases hr
  | succ fuel ih =>
    unfold Heap.searchPrev
    exact (Logs.pure prev).ite ((Logs.load _ _).bind fun nxt => (Logs.pure tmp).ite (ih nxt))

theorem Logs.absorb (b n : Nat) : Logs (absorb b n) := by
  have hfooter : Logs (setFooter b) :=
    ((Logs.load _ _).bind fun _ => .pure _).bind fun p => (Logs.load _ _).bind fun _ => .store p _ _
  exact (Logs.load _ _).bind fun _ => (Logs.load _ _).bind fun _ => (Logs.store _ _ _).bind fun _ =>
    (Logs.load _ _).bind fun _ => (Logs.store _ _ _).bind fun _ => hfooter

/-- The backward merge reads the flag of the block that the word in front leads to. -/
theorem mergePrev_reads {b : Nat} {h h' : HeapState} (hb : heapStart < b)
    (hne : prevPtr b (loadLE h.mem (b - 8) 8) ≠ 0) (hr : mergePrev b h = some ((), h')) :
    (prevPtr b (loadLE h.mem (b - 8) 8) + 8, 1) ∈ h'.touched := by
  unfold mergePrev at hr
  rw [bind_run, prevBlock_word hb, some_bind, bind_run, freeAt, if_neg hne] at hr
  obtain ⟨⟨f, h1⟩, hf, hr⟩ := Option.bind_eq_some_iff.mp hr
  cases hf
  have hrest (p : Nat) : Logs (do
      if ← getFree p then
        if (← getNext p) = b then
          absorb p b
          if (← get).allocCursor = b then setCursor p) :=
    (Logs.getFree p).bind fun _ => .ite ((Logs.load _ _).bind fun _ => .ite
      ((Logs.absorb p b).bind fun _ => Logs.get.bind fun _ => .ite (.setCursor p) (.pure _))
      (.pure _)) (.pure _)
  refine Logs.ite (.ite ((Logs.load _ _).bind fun nxt => ?_) (.pure _)) (.pure _) _ _ _ hr
    List.mem_cons_self
  exact .ite (Logs.get.bind fun _ => (Logs.searchPrev _ _ _ _).bind hrest) ((Logs.pure _).bind hrest)

end logged

section forward

/-- The block at `b` is the last of the heap, or the one behind it ends in the heap. -/
def NextWhole (m : Mem) (b : Nat) : Prop :=
  b + 32 + loadLE m b 8 = heapStart + heapSize ∨
    b + 64 + loadLE m b 8 + loadLE m (b + 32 + loadLE m b 8) 8 ≤ heapStart + heapSize

theorem walkList_mem {block fuel tmp : Nat} {h h' : HeapState}
    (hr : walkList block fuel tmp h = some ((), h')) : h'.mem = h.mem := by
  induction fuel generalizing tmp h with
  | zero => cases hr
  | succ fuel ih =>
    unfold walkList at hr
    split at hr
    · cases hr
      rfl
    · rw [bind_run, getNext_run, some_bind] at hr
      have hmem := ih hr
      exact hmem

theorem absorb_agree {h : HeapState} {b : Nat} (hb : heapStart ≤ b)
    (hu : b + 64 + loadLE h.mem b 8 + loadLE h.mem (b + 32 + loadLE h.mem b 8) 8 ≤
      heapStart + heapSize) :
    ∃ h', absorb b (b + 32 + loadLE h.mem b 8) h = some ((), h') ∧ AgreeOn h.mem h'.mem 0 b := by
  have hend : b + 32 + loadLE h.mem b 8 + 32 + loadLE h.mem (b + 32 + loadLE h.mem b 8) 8 ≤
      heapStart + heapSize := by omega
  obtain ⟨t, habs, -⟩ := absorb_run (h := h) rfl rfl rfl rfl hb hend
  refine ⟨_, habs, ?_⟩
  generalize loadLE h.mem b 8 + 32 + loadLE h.mem (b + 32 + loadLE h.mem b 8) 8 = s
  exact mergeMem_agree (Or.inl le_rfl)

/-- The forward merge writes nothing in front of the block. -/
theorem mergeNext_agree {b : Nat} {h h' : HeapState} (hb : heapStart ≤ b) (hn : NextWhole h.mem b)
    (hr : mergeNext b h = some ((), h')) : AgreeOn h.mem h'.mem 0 b := by
  have hle : b + 32 + loadLE h.mem b 8 ≤ heapStart + heapSize := by
    rcases hn with hn | hn
    · exact hn.le
    · omega
  have hw : wrap (b + 32 + loadLE h.mem b 8) = b + 32 + loadLE h.mem b 8 := by
    rw [wrap_of_lt]
    simp only [heapStart, heapSize] at hle
    omega
  have hnext : nextBlock b h = some (if heapStart + heapSize ≤ b + 32 + loadLE h.mem b 8 then 0 else
      b + 32 + loadLE h.mem b 8, h.touch b 8) := by
    simp only [nextBlock, bind_run, getSize_run, some_bind, hw, pure_run]
  unfold mergeNext at hr
  rw [bind_run, hnext, some_bind, bind_run] at hr
  by_cases hlast : heapStart + heapSize ≤ b + 32 + loadLE h.mem b 8
  · -- no block behind: `freeAt` of null
    simp only [if_pos hlast, freeAt, if_true, pure_run, some_bind, Bool.false_eq_true, if_false] at hr
    cases hr
    exact .refl _ _ _
  · have hz : b + 32 + loadLE h.mem b 8 ≠ 0 := by omega
    simp only [if_neg hlast, freeAt, if_neg hz, getFree, bind_run, load_run, some_bind, pure_run,
      if_pos (Nat.lt_of_not_le hlast)] at hr
    split at hr
    · rw [bind_run, getNext_run, some_bind, bind_run] at hr
      obtain ⟨⟨_, h2⟩, hwalk, hr⟩ := Option.bind_eq_some_iff.mp hr
      have hmem := walkList_mem hwalk
      change h2.mem = h.mem at hmem
      have hroom := hn.resolve_left (by omega)
      rw [← hmem] at hroom
      obtain ⟨h3, habs, hag⟩ := absorb_agree hb hroom
      rw [hmem] at habs hag
      rw [bind_run, habs, some_bind, bind_run, get_run, some_bind] at hr
      dsimp only at hr
      split at hr
      · cases hr
        exact hag
      · cases hr
        exact hag
    · cases hr
      exact .refl _ _ _

end forward

/-- `kfree` reads the flag of whatever block the word in front of its block leads to. -/
theorem kfree_reads {b : Nat} {h h' : HeapState} (hb : heapStart < b)
    (hu : b + 32 < heapStart + heapSize) (hcur : h.allocCursor ≠ 0)
    (huse : loadLE h.mem (b + 8) 1 = 0) (hn : NextWhole h.mem b)
    (hne : prevPtr b (loadLE h.mem (b - 8) 8) ≠ 0) (hr : kfree (b + 32) h = some ((), h')) :
    (prevPtr b (loadLE h.mem (b - 8) 8) + 8, 1) ∈ h'.touched := by
  have hflag : getFree b h = some (false, h.touch (b + 8) 1) := by
    simp only [getFree, bind_run, load_run, some_bind, huse, pure_run]
    rfl
  rw [kfree_entry hb.le hu hcur hflag] at hr
  obtain ⟨⟨_, h2⟩, hnext, hprev⟩ := Option.bind_eq_some_iff.mp hr
  have hmark : NextWhole (storeLE h.mem (b + 8) 1 1) b := by
    unfold NextWhole at hn ⊢
    simp (disch := omega) only [loadLE_storeLE_disjoint]
    exact hn
  have hword : loadLE h2.mem (b - 8) 8 = loadLE h.mem (b - 8) 8 := by
    have hag := mergeNext_agree (h := { (h.touch (b + 8) 1).put (b + 8) 1 1 with
      allocCursor := if b < h.allocCursor then b else h.allocCursor }) hb.le hmark hnext
    change AgreeOn (storeLE h.mem (b + 8) 1 1) h2.mem 0 b at hag
    have h8 : 8 ≤ b := by
      simp only [heapStart] at hb
      omega
    rw [loadLE_congr (hag.mono (by omega) (by omega)), loadLE_storeLE_disjoint _ _ (by omega)]
  rw [← hword] at hne ⊢
  exact mergePrev_reads hb hne hprev

end LosTacOS.Heap
