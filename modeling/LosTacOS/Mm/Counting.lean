import LosTacOS.Mm.Cloning

/-! How many pages procfs says that a process has, and how many it has. -/
namespace LosTacOS.Mm

section count

/-- The part of an address space that `procfs.cpp` looks at; frame 0 is the null pointer. -/
structure PageTable where
  pml4 : Nat

structure AddressSpace where
  table : Option PageTable

/-- The top-level table behind the pointers, if none of them is null. -/
def topTable (space : Option AddressSpace) : Option Nat := do
  let space ← space
  let table ← space.table
  if table.pml4 = 0 then none else some table.pml4

/-- A loop over the 512 entries of a table; the present ones change the count. -/
def overEntries (ram : Ram) (table : Nat) (body : Nat → Nat → Nat) (pages : Nat) : Nat :=
  (List.range 512).foldl
    (fun pages i => if present (ram table i) then body (ram table i) pages else pages) pages

def countUserPages (ram : Ram) (space : Option AddressSpace) : Nat :=
  match topTable space with
  | none => 0
  | some pml4 =>
    if present (ram pml4 0) then
      if frameOf (ram pml4 0) = 0 then 0
      else
        overEntries ram (frameOf (ram pml4 0)) (fun e3 =>
          overEntries ram (frameOf e3) (fun e2 =>
            overEntries ram (frameOf e2) (fun _ pages => pages + 1))) 0
    else 0

end count

section pages

variable {ram : Ram} {s : Nat} {space : Option AddressSpace}

def Leaf.isUser (ram : Ram) (x : Leaf) : Bool := user (ram x.pt x.i1)

/-- Under entry 0 every present entry counts, unless the entry leads to frame 0. -/
def Leaf.counted (ram : Ram) (s : Nat) (x : Leaf) : Bool := x.i4 = 0 && frameOf (ram s 0) ≠ 0

/-- The present leaf entries with `PAGE_USER` in the lower half: the pages that `clone_user_pages`
copies and `destroy_user_pages` frees. -/
def userPages (ram : Ram) (space : Option AddressSpace) : List Leaf :=
  match topTable space with
  | none => []
  | some pml4 => (leaves ram pml4).filter (Leaf.isUser ram)

def foreignPages (ram : Ram) (space : Option AddressSpace) : List Leaf :=
  match topTable space with
  | none => []
  | some pml4 => (leaves ram pml4).filter fun x => x.counted ram pml4 && !x.isUser ram

def missedPages (ram : Ram) (space : Option AddressSpace) : List Leaf :=
  match topTable space with
  | none => []
  | some pml4 => (leaves ram pml4).filter fun x => !x.counted ram pml4 && x.isUser ram

theorem overEntries_eq {table : Nat} {body : Nat → Nat → Nat} (size : Nat → Nat)
    (h : ∀ e pages, body e pages = pages + size e) (pages : Nat) :
    overEntries ram table body pages =
      pages + ((presentIn ram table 512).map fun i => size (ram table i)).sum := by
  unfold overEntries presentIn
  generalize List.range 512 = is
  induction is generalizing pages with
  | nil => rfl
  | cons i is ih =>
    rw [List.foldl_cons, ih]
    cases hp : present (ram table i) with
    | true => simp [hp, h, Nat.add_assoc]
    | false => simp [hp]

def leavesUnder (ram : Ram) (s i4 : Nat) : List Leaf :=
  (presentIn ram (frameOf (ram s i4)) 512).flatMap fun i3 =>
    (presentIn ram (frameOf (ram (frameOf (ram s i4)) i3)) 512).flatMap fun i2 =>
      (presentIn ram (frameOf (ram (frameOf (ram (frameOf (ram s i4)) i3)) i2)) 512).map fun i1 =>
        ⟨i4, i3, i2, i1, frameOf (ram (frameOf (ram (frameOf (ram s i4)) i3)) i2)⟩

theorem leaves_eq : leaves ram s = (presentIn ram s 256).flatMap (leavesUnder ram s) := rfl

theorem leavesUnder_index {i4 : Nat} {x : Leaf} (h : x ∈ leavesUnder ram s i4) : x.i4 = i4 := by
  simp only [leavesUnder, List.mem_flatMap, List.mem_map] at h
  obtain ⟨_, -, _, -, _, -, rfl⟩ := h
  rfl

theorem overEntries_leaves : overEntries ram (frameOf (ram s 0)) (fun e3 =>
      overEntries ram (frameOf e3) (fun e2 =>
        overEntries ram (frameOf e2) (fun _ pages => pages + 1))) 0 =
    (leavesUnder ram s 0).length := by
  have h1 (e2 pages : Nat) : overEntries ram (frameOf e2) (fun _ pages => pages + 1) pages =
      pages + (presentIn ram (frameOf e2) 512).length := by
    rw [overEntries_eq (fun _ => 1) fun _ _ => rfl]
    simp
  have h2 (e3 pages : Nat) : overEntries ram (frameOf e3) (fun e2 =>
      overEntries ram (frameOf e2) (fun _ pages => pages + 1)) pages = _ :=
    overEntries_eq _ h1 pages
  rw [overEntries_eq _ h2]
  simp [leavesUnder, List.length_flatMap]

/-- The leaves under entry 0 are those of the space that lie there. -/
theorem leaves_low : (leaves ram s).filter (fun x => x.i4 = 0) =
    if present (ram s 0) then leavesUnder ram s 0 else [] := by
  have hlow : (leavesUnder ram s 0).filter (fun x => x.i4 = 0) = leavesUnder ram s 0 := by
    apply List.filter_eq_self.mpr
    intro x hx
    simp [leavesUnder_index hx]
  have hhigh (i : Nat) : (leavesUnder ram s (i + 1)).filter (fun x => x.i4 = 0) = [] := by
    apply List.filter_eq_nil_iff.mpr
    intro x hx
    simp [leavesUnder_index hx]
  have hrange : presentIn ram s 256 =
      (if present (ram s 0) then [0] else []) ++
        ((List.range 255).map Nat.succ).filter fun i => present (ram s i) := by
    unfold presentIn
    rw [List.range_succ_eq_map, List.filter_cons]
    split_ifs <;> rfl
  have hrest : ((((List.range 255).map Nat.succ).filter fun i => present (ram s i)).flatMap
      (leavesUnder ram s)).filter (fun x => x.i4 = 0) = [] := by
    apply List.filter_eq_nil_iff.mpr
    intro x hx
    simp only [List.mem_flatMap, List.mem_filter, List.mem_map] at hx
    obtain ⟨_, ⟨⟨i, -, rfl⟩, -⟩, hx⟩ := hx
    simp [leavesUnder_index hx]
  rw [leaves_eq, hrange, List.flatMap_append, List.filter_append, hrest, List.append_nil]
  split_ifs with hp
  · simpa using hlow
  · rfl

/-- What is counted are the leaves that lie under entry 0. -/
theorem countUserPages_eq (space : Option AddressSpace) : countUserPages ram space =
    match topTable space with
    | none => 0
    | some pml4 => (leaves ram pml4).countP (Leaf.counted ram pml4) := by
  unfold countUserPages
  cases topTable space with
  | none => rfl
  | some pml4 =>
    dsimp only
    by_cases hnull : frameOf (ram pml4 0) = 0
    · have hnone : (leaves ram pml4).countP (Leaf.counted ram pml4) = 0 := by
        apply List.countP_eq_zero.mpr
        intro x _
        simp [Leaf.counted, hnull]
      rw [hnone]
      simp [hnull]
    · have hlow : (leaves ram pml4).countP (Leaf.counted ram pml4) =
          ((leaves ram pml4).filter (fun x => x.i4 = 0)).length := by
        rw [← List.countP_eq_length_filter]
        apply List.countP_congr
        intro x _
        simp [Leaf.counted, hnull]
      rw [hlow, leaves_low, if_neg hnull]
      split_ifs with hp
      · exact overEntries_leaves
      · rfl

/-- Two kinds of items are equally many when as many are only of the one as only of the other. -/
theorem countP_eq_iff {α : Type} (p q : α → Bool) (xs : List α) : xs.countP p = xs.countP q ↔
    (xs.filter fun x => p x && !q x).length = (xs.filter fun x => !p x && q x).length := by
  have hsum : xs.countP p + (xs.filter fun x => !p x && q x).length =
      xs.countP q + (xs.filter fun x => p x && !q x).length := by
    induction xs with
    | nil => rfl
    | cons x xs ih =>
      cases hp : p x <;> cases hq : q x <;> simp [hp, hq] <;> omega
  omega

/-- The count is right exactly when the pages under entry 0 that are not the user's are as many as
the user's pages under the other entries. -/
theorem countUserPages_iff (ram : Ram) (space : Option AddressSpace) :
    countUserPages ram space = (userPages ram space).length ↔
      (foreignPages ram space).length = (missedPages ram space).length := by
  rw [countUserPages_eq]
  unfold userPages foreignPages missedPages
  cases topTable space with
  | none => exact iff_of_true rfl rfl
  | some pml4 =>
    dsimp only
    rw [← countP_eq_iff, List.countP_eq_length_filter (p := Leaf.isUser ram)]

def kernelPage : Ram := fun f i =>
  if i = 0 ∧ 1 ≤ f ∧ f < 4 then entry (f + 1) 7 else if i = 0 ∧ f = 4 then entry 0 3 else 0

theorem kernelPage_next {f i : Nat} (hf : f < 4) (h : present (kernelPage f i) = true) :
    frameOf (kernelPage f i) = f + 1 := by
  unfold kernelPage at h ⊢
  split_ifs at h ⊢ with h1 h2
  · exact frameOf_entry (by decide)
  · omega
  · cases h

theorem kernelPage_leaf {x : Leaf} (h : x ∈ leaves kernelPage 1) : x.isUser kernelPage = false := by
  obtain ⟨⟨-, h4⟩, ⟨-, h3⟩, ⟨-, h2⟩, hpt, -, -⟩ := mem_leaves.mp h
  rw [kernelPage_next (by decide) h4] at h3 h2 hpt
  rw [kernelPage_next (by decide) h3] at h2 hpt
  rw [kernelPage_next (by decide) h2] at hpt
  rw [Leaf.isUser, hpt]
  unfold kernelPage
  split_ifs
  · omega
  · rw [user_entry]
    decide
  · decide

theorem kernel_page_counted : ¬ ∀ (ram : Ram) (space : Option AddressSpace),
    countUserPages ram space = (userPages ram space).length := by
  intro H
  have h := H kernelPage (some ⟨some ⟨1⟩⟩)
  have hleaf : (⟨0, 0, 0, 0, 4⟩ : Leaf) ∈ leaves kernelPage 1 := by
    rw [mem_leaves]
    decide
  have hpos : 0 < countUserPages kernelPage (some ⟨some ⟨1⟩⟩) := by
    rw [countUserPages_eq]
    exact List.countP_pos_iff.mpr ⟨_, hleaf, by decide⟩
  have hnone : userPages kernelPage (some ⟨some ⟨1⟩⟩) = [] := by
    apply List.filter_eq_nil_iff.mpr
    intro x hx
    simp [kernelPage_leaf hx]
  rw [h, hnone] at hpos
  exact Nat.lt_irrefl 0 hpos

end pages

section loops

variable {Z : Prop} {k d s : Nat} {fb : Framebuffer} {m : Machine} {own : Nat → Owner}

theorem eachOf_filter {α : Type} {body : α → Machine → Bool × Machine} {p : α → Bool}
    (h : ∀ x m, p x = false → body x m = (true, m)) (xs : List α) (m : Machine) :
    Machine.eachOf body xs m = Machine.eachOf body (xs.filter p) m := by
  induction xs generalizing m with
  | nil => rfl
  | cons x xs ih =>
    cases hp : p x with
    | true =>
      rw [List.filter_cons_of_pos hp, Machine.eachOf, Machine.eachOf]
      cases body x m with
      | mk go m' =>
        cases go with
        | true => exact ih m'
        | false => rfl
    | false =>
      rw [List.filter_cons_of_neg (by simp [hp]), Machine.eachOf, h x m hp]
      exact ih m

/-- `clone_user_pages` visits the user's pages. -/
theorem Owned.cloneUserPages_visits (h : Owned Z k fb m own) (hd : d ≠ k) (hs : s ≠ k)
    (hsd : s ≠ d) (hrootd : own d = .table d []) (hroots : own s = .table s []) :
    m.cloneUserPages fb d s =
      Machine.eachOf (Machine.copyRound fb d m.ram) (userPages m.ram (some ⟨some ⟨s⟩⟩)) m := by
  have hnz : s ≠ 0 := by
    rintro rfl
    rw [h.zero] at hroots
    cases hroots
  have htop : userPages m.ram (some ⟨some ⟨s⟩⟩) = (leaves m.ram s).filter (Leaf.isUser m.ram) := by
    simp [userPages, topTable, hnz]
  rw [htop, h.cloneUserPages_eq hd hs hsd hrootd hroots]
  apply eachOf_filter
  intro x m' hx
  unfold Machine.copyRound Machine.copyLeaf
  exact if_neg (by simpa [Leaf.isUser] using hx)

end loops

end LosTacOS.Mm
