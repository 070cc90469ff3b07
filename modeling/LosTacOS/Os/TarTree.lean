import LosTacOS.Os.Refinding
import LosTacOS.Os.Rootfs
import Mathlib.Data.List.Infix

/-! How a tree grows while files, directories and links are made in it by their paths, and what
`find` comes to in such a tree. -/
namespace LosTacOS.Os.Kernel

variable {env : Env} {k k' k1 : Kernel} {path s : List Char} {n m c d dir : Nat}
  {ps us vs : List (List Char)}

section names

theorem Rooted.down_inj (hr : Rooted k) (h : k.down us k.root = some n)
    (h' : k.down vs k.root = some n) : us = vs := by
  have hlast : ∀ {ws : List (List Char)} {s m}, k.down (ws ++ [s]) k.root = some m →
      ∃ e, k.down ws k.root = some e ∧ k.Linked e ∧ m ∈ (k.node e).children ∧
        (k.node m).name = s := by
    intro ws s m hm
    rw [down_append] at hm
    obtain ⟨e, hws, hm⟩ := Option.bind_eq_some_iff.mp hm
    obtain ⟨x, hx, hm⟩ := Option.bind_eq_some_iff.mp hm
    cases hm
    obtain ⟨hmem, hname⟩ := findIn_child hx
    exact ⟨e, hws, down_linked .refl hws, hmem, hname⟩
  induction us using List.reverseRecOn generalizing vs n with
  | nil =>
    cases h
    cases List.eq_nil_or_concat vs with
    | inl hnil => exact hnil.symm
    | inr hv =>
      obtain ⟨ws, s, rfl⟩ := hv
      rw [List.concat_eq_append] at h'
      obtain ⟨e, -, hl, hmem, -⟩ := hlast h'
      exact absurd rfl (hr.child_ne hl hmem).1
  | append_singleton us s ih =>
    obtain ⟨e, hus, hl, hmem, hname⟩ := hlast h
    cases List.eq_nil_or_concat vs with
    | inl hnil =>
      rw [hnil] at h'
      cases h'
      exact absurd rfl (hr.child_ne hl hmem).1
    | inr hv =>
      obtain ⟨ws, t, rfl⟩ := hv
      rw [List.concat_eq_append] at h' ⊢
      obtain ⟨x, hws, hlx, hmemx, hnamex⟩ := hlast h'
      have hup := hr.up hl hmem
      rw [hr.up hlx hmemx] at hup
      cases hup
      rw [ih hus hws, ← hname, hnamex]

end names

section growing

/-- Old nodes stay what they are, and new ones are directories but for the one that was asked
for. -/
structure Sprouts (k : Kernel) (r : Option Nat) (k' : Kernel) : Prop where
  old : ∀ m, k.Linked m → (k'.node m).directory = (k.node m).directory
  file : ∀ m, k.Linked m → (k'.node m).file = (k.node m).file
  leaf : ∀ m, k'.Linked m → (k'.node m).directory = false → k.Linked m ∨ r = some m

theorem Sprouts.refl (k : Kernel) (r : Option Nat) : Sprouts k r k :=
  ⟨fun _ _ => rfl, fun _ _ => rfl, fun _ hm _ => Or.inl hm⟩

theorem Sprouts.make {x : Bool} (hr : Rooted k) (hd : k.Linked dir)
    (hc : k.createNode env s x dir = some (n, k')) :
    Sprouts k (if x then none else some n) k' := by
  obtain ⟨hn, rfl⟩ := createNode_eq env hc
  have hr1 : Rooted { k with allocs := k.allocs + 1 } := hr.of_shape rfl
  have hne : n ≠ dir := fun he => hn (he ▸ hr.used hd)
  refine ⟨fun m hm => ?_, fun m hm => ?_, fun m hm hleaf => ?_⟩
  · rw [hr1.linkNew_old hn (hm.of_shape rfl)]
    rfl
  · rw [hr1.linkNew_old hn (hm.of_shape rfl)]
    rfl
  · cases linkNew_linked hne hm with
    | inl hold => exact Or.inl (hold.of_shape rfl)
    | inr he =>
      rw [he, linkNew_new hne] at hleaf
      cases x with
      | true => cases hleaf
      | false => exact Or.inr (congrArg some he.symm)

theorem Sprouts.trans {r : Option Nat} (h : Sprouts k none k1) (h' : Sprouts k1 r k')
    (hl : ∀ m, k.Linked m → k1.Linked m) : Sprouts k r k' := by
  refine ⟨fun m hm => (h'.old m (hl m hm)).trans (h.old m hm),
    fun m hm => (h'.file m (hl m hm)).trans (h.file m hm), fun m hm hleaf => ?_⟩
  cases h'.leaf m hm hleaf with
  | inr he => exact Or.inr he
  | inl h1 =>
    rw [h'.old m h1] at hleaf
    exact Or.inl ((h.leaf m h1 hleaf).resolve_right nofun)

theorem Creates.sprouts {r : Option Nat} (h : Creates env ps dir k r k') (hr : Rooted k)
    (hd : k.Linked dir) : Sprouts k r k' := by
  induction h with
  | nil => exact .refl _ _
  | found hf => exact .refl _ _
  | blocked hf hn => exact .refl _ _
  | made hf hm => exact .make hr hd hm
  | down hf _ _ ih => exact ih hr (hd.findIn hf)
  | make hf hm _ ih =>
    have h1 := hr.madeIn hd hf hm
    exact (Sprouts.make hr hd hm).trans (ih h1.rooted h1.linked_new) h1.linked

/-- The directories that are made on the way stand in nobody's way: what blocks was there. -/
theorem Creates.blocked_at (h : Creates env ps dir k none k') (hr : Rooted k) (hd : k.Linked dir)
    (hps : ps ≠ []) : ∃ us vs n, ps = us ++ vs ∧ us ≠ [] ∧ vs ≠ [] ∧ k.down us dir = some n ∧
      (k.node n).directory = false := by
  generalize hnone : (none : Option Nat) = r at h
  induction h with
  | nil => exact absurd rfl hps
  | found hf => cases hnone
  | made hf hm => cases hnone
  | @blocked part next ps dir k n hf hn =>
    refine ⟨[part], next :: ps, n, rfl, List.cons_ne_nil _ _, List.cons_ne_nil _ _, ?_, by simpa using hn⟩
    rw [Kernel.down, hf]
    rfl
  | @down part next ps dir k n r k' hf hn hc ih =>
    obtain ⟨us, vs, m, he, hus, hvs, hm, hleaf⟩ := ih hr (hd.findIn hf) (List.cons_ne_nil _ _) hnone
    refine ⟨part :: us, vs, m, by rw [he, List.cons_append], List.cons_ne_nil _ _, hvs, ?_, hleaf⟩
    rw [Kernel.down, hf]
    exact hm
  | @make part next ps dir k n k1 r k' hf hm hc ih =>
    have h1 := hr.madeIn hd hf hm
    obtain ⟨us, vs, m, he, hus, -, hm, -⟩ := ih h1.rooted h1.linked_new (List.cons_ne_nil _ _) hnone
    cases us with
    | nil => exact absurd rfl hus
    | cons s us =>
      obtain ⟨c, hc, -⟩ := Option.bind_eq_some_iff.mp hm
      have hmem := (findIn_child hc).1
      rw [h1.empty] at hmem
      cases hmem

theorem createDirIn_sprouts (hr : Rooted k) (hd : k.Linked dir)
    (h : createDirIn env ps dir k = some (n, k')) : Sprouts k none k' := by
  induction ps generalizing k dir with
  | nil =>
    cases h
    exact .refl _ _
  | cons s ps ih =>
    rw [createDirIn] at h
    cases hc : k.findIn dir s with
    | some c =>
      rw [hc] at h
      exact ih hr (hd.findIn hc) h
    | none =>
      rw [hc] at h
      obtain ⟨⟨c, k1⟩, hm, h⟩ := Option.bind_eq_some_iff.mp h
      have h1 := hr.madeIn hd hc hm
      exact (Sprouts.make hr hd hm).trans (ih h1.rooted h1.linked_new h) h1.linked

/-- The tree after `create_file_path`, whether or not it gets to the end of the path. -/
theorem Creates.enlarges {r : Option Nat} (h : Creates env ps dir k r k') (hr : Rooted k)
    (hd : k.Linked dir) : Enlarges k k' := by
  induction h with
  | nil => exact .refl hr
  | found hf => exact .refl hr
  | blocked hf hn => exact .refl hr
  | made hf hm => exact (hr.madeIn hd hf hm).toEnlarges
  | down hf _ _ ih => exact ih hr (hd.findIn hf)
  | make hf hm _ ih =>
    have h1 := hr.madeIn hd hf hm
    exact h1.toEnlarges.trans (ih h1.rooted h1.linked_new)

end growing

section lookup

variable {find : Finder} {qs : List (List Char × Option (List Char))}

/-- A walk along names below directories only ends where the names lead. -/
theorem walkParts_leads
    (hps : (qs.map fun q => cut q.1).filter (fun s => s ≠ [] ∧ s ≠ ['.']) = ps)
    (hdots : ['.', '.'] ∉ ps)
    (hlinks : ∀ us c, us <+: ps → us ≠ [] → k.down us d = some c → (k.node c).type ≠ .symlink)
    (h : k.down ps d = some n) : walkParts env find qs d k = some (some n, k) := by
  induction qs generalizing ps d with
  | nil =>
    rw [List.map_nil, List.filter_nil] at hps
    rw [← hps] at h
    cases h
    rfl
  | cons q qs ih =>
    obtain ⟨part, rest⟩ := q
    rw [List.map_cons] at hps
    dsimp only at hps
    rw [walkParts]
    by_cases hskip : cut part = [] ∨ cut part = ['.']
    · rw [if_pos hskip]
      rw [List.filter_cons_of_neg (by simpa using fun hne => hskip.resolve_left hne)] at hps
      exact ih hps hdots hlinks h
    · rw [if_neg hskip]
      rw [List.filter_cons_of_pos (by simpa using not_or.mp hskip)] at hps
      rw [← hps] at hdots hlinks h
      have hup : cut part ≠ ['.', '.'] := by
        intro he
        rw [he] at hdots
        exact hdots List.mem_cons_self
      rw [if_neg hup]
      obtain ⟨c, hc, hdown⟩ := Option.bind_eq_some_iff.mp h
      have hc' : (k.node c).type ≠ .symlink := by
        refine hlinks [cut part] c ⟨_, rfl⟩ (List.cons_ne_nil _ _) ?_
        rw [Kernel.down, hc]
        rfl
      have hfollow : followLinks env find 8 c k = some (some c, k) := by
        unfold followLinks
        rw [if_neg hc']
      rw [hc]
      dsimp only
      rw [hfollow]
      refine ih rfl (fun hm => hdots (List.mem_cons_of_mem _ hm)) ?_ hdown
      intro us x hpre hne hx
      refine hlinks (cut part :: us) x ?_ (List.cons_ne_nil _ _) ?_
      · exact List.cons_prefix_cons.mpr ⟨rfl, hpre⟩
      · rw [Kernel.down, hc]
        exact hx

theorem components_splitOn (path : List Char) :
    components path = ((path.splitOn '/').map cut).filter (· ≠ []) := by
  unfold components
  rw [← parts_fst (Nat.lt_succ_self path.length), List.map_map]
  rfl

/-- `find` of a path whose names lead from the root to a node, over no link. -/
theorem AtHome.find_leads (hh : AtHome k) (hfuel : 0 < env.fuel) (hne : path ≠ [])
    (hps : (components path).filter (· ≠ ['.']) = ps) (hdots : ['.', '.'] ∉ ps)
    (hlinks : ∀ us c, us <+: ps → us ≠ [] → k.down us k.root = some c → (k.node c).type ≠ .symlink)
    (h : k.down ps k.root = some n) : k.find env path = some (some n, k) := by
  obtain ⟨j, hj⟩ : ∃ j, env.fuel = j + 1 := ⟨env.fuel - 1, by omega⟩
  obtain ⟨qs, hqs, hfind⟩ := search_eq (k := k) hne
  have hstart : k.startDir path = k.root := by
    unfold Kernel.startDir
    rw [hh.home, ite_self]
  unfold Kernel.find
  rw [hj, (hfind env j).1, hstart]
  refine walkParts_leads ?_ hdots hlinks h
  have hmap : qs.map (fun q => cut q.1) = (path.splitOn '/').map cut := by
    rw [← hqs, List.map_map]
    rfl
  rw [hmap, ← hps, components_splitOn, List.filter_filter]
  apply List.filter_congr
  intro s _
  simp [Bool.and_comm]

end lookup

end LosTacOS.Os.Kernel
