import LosTacOS.Os.Refinding

/-! How deep the calls of `find` nest. Each link that a search comes to is looked up by a search of
its own, with a counter of its own, and that search never ends on a link. So the counter does not
count: the calls nest as deep as the links do, and a search along a cycle of links does not end. -/
namespace LosTacOS.Os.Kernel

def SameNodes (k q : Kernel) : Prop := q.nodes = k.nodes ∧ q.root = k.root

/-- Walking along components from a node, with links nested at most `d` deep: where the walk ends,
and in which state. A link is followed by a walk along its text from the root. -/
inductive Unwinds (env : Env) : Nat → Kernel → Nat → List (List Char × Option (List Char)) →
    Option Nat → Kernel → Prop
  | done {d k n} : Unwinds env d k n [] (some n) k
  | skip {d k n part rest ps r k'} : cut part = [] ∨ cut part = ['.'] →
      Unwinds env d k n ps r k' → Unwinds env d k n ((part, rest) :: ps) r k'
  | up {d k n part rest ps r k'} : cut part = ['.', '.'] →
      Unwinds env d k ((k.node n).parent.getD n) ps r k' →
      Unwinds env d k n ((part, rest) :: ps) r k'
  | child {d k n part rest ps c r k'} : Plain (cut part) → k.findIn n (cut part) = some c →
      (k.node c).type ≠ .symlink → Unwinds env d k c ps r k' →
      Unwinds env d k n ((part, rest) :: ps) r k'
  | link {d k n part rest ps c fuel text m k1 r k'} : Plain (cut part) →
      k.findIn n (cut part) = some c → (k.node c).type = .symlink →
      k.linkTarget { env with fuel } c = some text →
      Unwinds env d k k.root (parts (text.length + 1) text) (some m) k1 →
      Unwinds env (d + 1) k1 m ps r k' → Unwinds env (d + 1) k n ((part, rest) :: ps) r k'
  | broken {d k n part rest ps c fuel text k1} : Plain (cut part) →
      k.findIn n (cut part) = some c → (k.node c).type = .symlink →
      k.linkTarget { env with fuel } c = some text →
      Unwinds env d k k.root (parts (text.length + 1) text) none k1 →
      Unwinds env (d + 1) k n ((part, rest) :: ps) none k1
  | miss {d k n part rest ps r k'} : Plain (cut part) → k.findIn n (cut part) = none →
      (∀ find, k.findMounted env find n (cut part) rest = some (r, k')) →
      Unwinds env d k n ((part, rest) :: ps) r k'
  | ask {d k n part rest ps q x r k'} : Plain (cut part) → k.findIn n (cut part) = none →
      SameNodes k q → (∀ find : Finder, find q "/dev".toList = some x →
        k.findMounted env find n (cut part) rest = some (r, k')) →
      Unwinds env d q q.root (parts 5 "/dev".toList) x.1 x.2 →
      Unwinds env (d + 1) k n ((part, rest) :: ps) r k'

/-- A path has an end, with links nested at most `d` deep. -/
def UnwindsPath (env : Env) (d : Nat) (k : Kernel) (path : List Char) (r : Option Nat)
    (k' : Kernel) : Prop :=
  if path = [] then r = some k.root ∧ k' = k
  else Unwinds env d k (k.startDir path) (parts (path.length + 1) path) r k'

variable {env : Env} {k k' k1 q : Kernel} {n m c d dir i j : Nat} {s part path text : List Char}
  {ps : List (List Char × Option (List Char))} {rest : Option (List Char)} {r : Option Nat}

structure Grounded (k : Kernel) : Prop extends Rooted k where
  rootNode : (k.node k.root).type ≠ .symlink

inductive Clear (k : Kernel) : Nat → Prop
  | root : (k.node k.root).type ≠ .symlink → Clear k k.root
  | child {d c : Nat} : Clear k d → c ∈ (k.node d).children → (k.node c).type ≠ .symlink →
      Clear k c

theorem Clear.linked (h : k.Clear n) : k.Linked n := by
  induction h with
  | root _ => exact .refl
  | child _ hc _ ih => exact .child ih hc

theorem Clear.not_link (h : k.Clear n) : (k.node n).type ≠ .symlink := by
  cases h with
  | root hr => exact hr
  | child _ _ hc => exact hc

structure KeepsTypes (k k' : Kernel) : Prop where
  root : k'.root = k.root
  type : ∀ m, k.Linked m → (k'.node m).type = (k.node m).type
  children : ∀ m, k.Linked m → ∀ c ∈ (k.node m).children, c ∈ (k'.node m).children

theorem KeepsTypes.linked (h : KeepsTypes k k') (hm : k.Linked m) : k'.Linked m := by
  unfold Linked
  rw [h.root]
  exact Under.mono hm h.children

theorem KeepsTypes.of_nodes (hn : k'.nodes = k.nodes) (hr : k'.root = k.root) :
    KeepsTypes k k' := by
  have hnode : ∀ m, k'.node m = k.node m := fun m => congrArg (Arena.cell · m) hn
  refine ⟨hr, fun m _ => by rw [hnode], fun m _ c hc => ?_⟩
  rw [hnode]
  exact hc

theorem KeepsTypes.trans (h : KeepsTypes k k1) (h' : KeepsTypes k1 k') : KeepsTypes k k' where
  root := h'.root.trans h.root
  type m hm := (h'.type m (h.linked hm)).trans (h.type m hm)
  children m hm c hc := h'.children m (h.linked hm) c (h.children m hm c hc)

theorem KeepsTypes.clear (h : KeepsTypes k k') (hn : k.Clear n) : k'.Clear n := by
  induction hn with
  | root hr =>
    rw [← h.root]
    refine .root ?_
    rw [h.root, h.type _ .refl]
    exact hr
  | child hd hc ht ih =>
    refine .child ih (h.children _ hd.linked _ hc) ?_
    rw [h.type _ (Under.child hd.linked hc)]
    exact ht

theorem Grounded.of_nodes (h : Grounded k) (hn : k'.nodes = k.nodes) (hr : k'.root = k.root) :
    Grounded k' ∧ KeepsTypes k k' := by
  have hs : k'.shape = k.shape := by
    unfold shape node
    rw [hn, hr]
  refine ⟨⟨h.toRooted.of_shape hs, ?_⟩, .of_nodes hn hr⟩
  have hnode : k'.node k.root = k.node k.root := congrArg (Arena.cell · k.root) hn
  rw [hr, hnode]
  exact h.rootNode

theorem KeepsTypes.device {name : List Char} (dev : DevOps) (h : Rooted k)
    (hc : k.createNode env name false dir = some (n, k')) :
    Rooted (k'.asDevice n dev) ∧ KeepsTypes k (k'.asDevice n dev) := by
  have hroot : k'.root = k.root := by
    obtain ⟨_, rfl⟩ := createNode_eq env hc
    rfl
  have hnew : n ∉ k.nodes.used := (createNode_eq env hc).1
  have hnode : ∀ m, k.Linked m → (k'.asDevice n dev).node m = _ := fun m hm =>
    (setNode_node k' n m _).trans
      ((if_neg fun he : m = n => hnew (he ▸ h.used hm)).trans (h.createNode_node hc hm))
  refine ⟨(h.createNode hc).of_shape (setNode_shape rfl rfl), hroot, fun m hm => ?_,
    fun m hm c hcm => ?_⟩
  · rw [hnode m hm]
  · rw [hnode m hm]
    dsimp only
    split
    · exact List.mem_cons_of_mem n hcm
    · exact hcm

theorem Grounded.device {name : List Char} (dev : DevOps) (h : Grounded k)
    (hc : k.createNode env name false dir = some (n, k')) :
    Grounded (k'.asDevice n dev) ∧ KeepsTypes k (k'.asDevice n dev) := by
  obtain ⟨hr, hkeeps⟩ := KeepsTypes.device dev h.toRooted hc
  refine ⟨⟨hr, ?_⟩, hkeeps⟩
  rw [hkeeps.root, hkeeps.type _ .refl]
  exact h.rootNode

theorem clear_stands : StandRule env Grounded KeepsTypes (fun _ _ => True) Clear where
  refl _ := .of_nodes rfl rfl
  trans h h' := h.trans h'
  keep _ _ := trivial
  root _ := trivial
  cwd _ := trivial
  parent _ _ _ := trivial
  child _ _ _ := trivial
  alloc h := h.of_nodes rfl rfl
  device _ h := h.of_nodes rfl rfl
  dev := by
    intro k name dir n k' dev h _ _ hc
    exact h.device dev hc
  ask := by
    intro k k' n fs found _ _ _ _ _ h _
    cases found with
    | false => exact h.of_nodes rfl rfl
    | true => exact h.of_nodes rfl rfl
  stays hR hv := hR.clear hv
  top h := .root h.rootNode
  above := by
    intro k n h hv
    cases hv with
    | root hr =>
      rw [h.top]
      exact .root hr
    | child hd hc _ =>
      rw [h.up hd.linked hc]
      exact hd
  below := by
    intro k n s c _ hv _ _ hc ht
    exact .child hv (findIn_child hc).1 ht

theorem Grounded.after (h : Grounded k) (hf : findTo env j k path = some (r, k')) : Grounded k' :=
  (clear_stands.follows j h trivial hf).1

theorem Grounded.ends (h : Grounded k)
    (hf : findTo env j k ('/' :: text) = some (some m, k')) : (k'.node m).type ≠ .symlink :=
  (clear_stands.findTo j h hf).not_link

/-- The loop over symbolic links is left after one round. -/
theorem Grounded.round (h : Grounded k) (hc : (k.node c).type = .symlink) :
    followLinks env (findTo env j) (i + 1) c k =
      (k.linkTarget env c).bind (findTo env j k) := by
  unfold followLinks
  rw [if_pos hc]
  dsimp only
  cases ht : k.linkTarget env c with
  | none => rfl
  | some target =>
    rw [Option.bind_eq_bind, Option.bind_some, Option.bind_some]
    cases hf : findTo env j k target with
    | none => rfl
    | some x =>
      obtain ⟨next, q⟩ := x
      rw [Option.bind_eq_bind, Option.bind_some]
      cases next with
      | none => rfl
      | some m =>
        obtain ⟨text, rfl⟩ := linkTarget_slash ht
        have hm := h.ends hf
        dsimp only
        unfold followLinks
        rw [if_neg hm]

section ask

variable {find find' : Finder} {y : Option Nat × Kernel}

theorem createDev_asks {name : List Char} {dev : DevOps}
    (hf : ∀ x, find k "/dev".toList = some x → find' k "/dev".toList = some x)
    (h : k.createDev env find name dev = some y) : k.createDev env find' name dev = some y := by
  obtain ⟨x, hx, h⟩ := Option.bind_eq_some_iff.mp h
  exact Option.bind_eq_some_iff.mpr ⟨x, hf x hx, h⟩

theorem makeDevice_asks (env : Env) (k : Kernel) (name : List Char) (ops : Option DevOps) :
    ∃ q, SameNodes k q ∧ ∀ {find find' : Finder} {y},
      (∀ x, find q "/dev".toList = some x → find' q "/dev".toList = some x) →
      k.makeDevice env find name ops = some y → k.makeDevice env find' name ops = some y := by
  unfold makeDevice
  cases hk : k.kmalloc env ∅ with
  | mk a q =>
    have hq : SameNodes k q := by
      rw [(kmalloc_eq hk).1]
      exact ⟨rfl, rfl⟩
    refine ⟨{ q with devices := (name, ops) :: q.devices }, hq, fun {find find' y} hf h => ?_⟩
    cases a with
    | none => exact h
    | some a =>
      cases ops with
      | none => exact h
      | some dev =>
        obtain ⟨x, hx, h⟩ := Option.bind_eq_some_iff.mp h
        exact Option.bind_eq_some_iff.mpr ⟨x, createDev_asks hf hx, h⟩

theorem openDevice_asks (env : Env) (k : Kernel) (name : List Char) :
    ∃ q, SameNodes k q ∧ ∀ {find find' : Finder} {y},
      (∀ x, find q "/dev".toList = some x → find' q "/dev".toList = some x) →
      k.openDevice env find name = some y → k.openDevice env find' name = some y := by
  unfold openDevice
  split
  · exact ⟨k, ⟨rfl, rfl⟩, fun _ h => h⟩
  split
  · exact makeDevice_asks env k name _
  split
  · cases hb : (k.findDevice "fb".toList).orElse fun _ => k.findDevice "fb0".toList with
    | none => exact ⟨k, ⟨rfl, rfl⟩, fun _ h => h⟩
    | some base => exact makeDevice_asks env k name base
  · exact ⟨k, ⟨rfl, rfl⟩, fun _ h => h⟩

theorem fsOpen_asks (env : Env) (k : Kernel) (fs : FileSystem) (data : Nat) (path : List Char) :
    ∃ q, SameNodes k q ∧ ∀ {find find' : Finder} {y},
      (∀ x, find q "/dev".toList = some x → find' q "/dev".toList = some x) →
      k.fsOpen env find fs data path = some y → k.fsOpen env find' fs data path = some y := by
  unfold fsOpen
  by_cases hfs : fs = .devfs
  · obtain ⟨q, hs, hq⟩ := openDevice_asks env k path
    refine ⟨q, hs, fun {find find' y} hf h => ?_⟩
    rw [if_pos hfs] at h ⊢
    obtain ⟨x, hx, h⟩ := Option.bind_eq_some_iff.mp h
    exact Option.bind_eq_some_iff.mpr ⟨x, hq hf hx, h⟩
  · refine ⟨k, ⟨rfl, rfl⟩, fun _ h => ?_⟩
    rw [if_neg hfs] at h ⊢
    exact h

/-- A mounted file system searches for `/dev` in one state at most, and answers what it answers
whenever that search has the same result. -/
theorem findMounted_asks (env : Env) (k : Kernel) (n : Nat) (part : List Char)
    (rest : Option (List Char)) : ∃ q, SameNodes k q ∧ ∀ {find find' : Finder} {y},
      (∀ x, find q "/dev".toList = some x → find' q "/dev".toList = some x) →
      k.findMounted env find n part rest = some y →
      k.findMounted env find' n part rest = some y := by
  unfold findMounted
  cases ht : (k.node n).type with
  | mount =>
    cases hfs : (k.node n).filesystem with
    | none => exact ⟨k, ⟨rfl, rfl⟩, fun _ h => h⟩
    | some fs =>
      obtain ⟨q, hs, hq⟩ := fsOpen_asks env k fs (k.node n).mountData
        (relpath part (rest.getD env.beyond))
      refine ⟨q, hs, fun {find find' y} hf h => ?_⟩
      dsimp only at h ⊢
      by_cases hopen : fs.has .open = true
      · rw [if_pos hopen] at h ⊢
        by_cases hlen : (relpath part (rest.getD env.beyond)).length < 256
        · rw [if_pos hlen] at h ⊢
          obtain ⟨x, hx, h⟩ := Option.bind_eq_some_iff.mp h
          exact Option.bind_eq_some_iff.mpr ⟨x, hq hf hx, h⟩
        · rw [if_neg hlen] at h
          cases h
      · rw [if_neg hopen] at h ⊢
        exact h
  | file => exact ⟨k, ⟨rfl, rfl⟩, fun _ h => h⟩
  | dir => exact ⟨k, ⟨rfl, rfl⟩, fun _ h => h⟩
  | dev => exact ⟨k, ⟨rfl, rfl⟩, fun _ h => h⟩
  | symlink => exact ⟨k, ⟨rfl, rfl⟩, fun _ h => h⟩

end ask

section unwinding

variable {env' : Env} {F G : Nat} {t acc : List Char} {a : Option Nat}

theorem pathFrom_mono (h : k.pathFrom F a acc = some t) (hF : F ≤ G) :
    k.pathFrom G a acc = some t := by
  induction F generalizing a acc G with
  | zero =>
    cases a with
    | none =>
      cases G with
      | zero => exact h
      | succ G => exact h
    | some x => cases h
  | succ F ih =>
    obtain ⟨G, rfl⟩ : ∃ g, G = g + 1 := ⟨G - 1, by omega⟩
    cases a with
    | none => exact h
    | some x =>
      unfold pathFrom at h ⊢
      split at h
      · rename_i hx
        rw [if_pos hx]
        exact h
      · rename_i hx
        rw [if_neg hx]
        exact ih h (by omega)

theorem getPath_mono (h : k.getPath env n = some t) (hF : env.fuel ≤ env'.fuel) :
    k.getPath env' n = some t := by
  unfold getPath at h ⊢
  split at h
  · rename_i hn
    rw [if_pos hn]
    exact h
  · rename_i hn
    obtain ⟨hp, hlen⟩ := Option.filter_eq_some_iff.mp h
    rw [if_neg hn]
    exact Option.filter_eq_some_iff.mpr ⟨pathFrom_mono hp hF, hlen⟩

theorem linkTarget_mono (h : k.linkTarget env c = some t) (hF : env.fuel ≤ env'.fuel) :
    k.linkTarget env' c = some t := by
  unfold linkTarget at h ⊢
  dsimp only at h ⊢
  split at h
  · rename_i habs
    rw [if_pos habs]
    exact h
  · rename_i habs
    rw [if_neg habs]
    cases hp : (k.node c).parent with
    | none =>
      rw [hp] at h
      exact h
    | some p =>
      rw [hp] at h
      obtain ⟨base, hb, h⟩ := Option.bind_eq_some_iff.mp h
      exact Option.bind_eq_some_iff.mpr ⟨base, getPath_mono hb hF, h⟩

theorem Grounded.same (h : Grounded k) (hq : SameNodes k q) : Grounded q :=
  (h.of_nodes hq.1 hq.2).1

theorem cut_cases (part : List Char) :
    (cut part = [] ∨ cut part = ['.']) ∨ cut part = ['.', '.'] ∨ Plain (cut part) := by
  by_cases hskip : cut part = [] ∨ cut part = ['.']
  · exact Or.inl hskip
  by_cases hup : cut part = ['.', '.']
  · exact Or.inr (Or.inl hup)
  · exact Or.inr (Or.inr ⟨fun he => hskip (Or.inl he), fun he => hskip (Or.inr he), hup⟩)

theorem walkParts_plain {find : Finder} (hp : Plain (cut part)) :
    walkParts env find ((part, rest) :: ps) n k =
      match k.findIn n (cut part) with
      | none => k.findMounted env find n (cut part) rest
      | some c => (followLinks env find 8 c k).bind fun x =>
        match x.1 with
        | none => some (none, x.2)
        | some m => walkParts env find ps m x.2 := by
  rw [walkParts]
  dsimp only
  rw [if_neg (not_or.mpr ⟨hp.1, hp.2.1⟩), if_neg hp.2.2]
  rfl

theorem findTo_rooted : findTo env (j + 1) k ('/' :: text) = walkParts env (findTo env j)
    (parts (('/' :: text).length + 1) ('/' :: text)) k.root k :=
  findTo_parts (List.cons_ne_nil _ _)

theorem Grounded.unwinds (hnext : ∀ {k path r k'}, Grounded k → findTo env j k path = some (r, k') →
      ∃ i, j = i + 1 ∧ UnwindsPath env i k path r k') (h : Grounded k)
    (hw : walkParts env (findTo env j) ps n k = some (r, k')) :
    Unwinds env j k n ps r k' := by
  have hroot : ∀ {i k text r k'}, UnwindsPath env i k ('/' :: text) r k' →
      Unwinds env i k k.root (parts (('/' :: text).length + 1) ('/' :: text)) r k' := fun hu => hu
  induction ps generalizing n k with
  | nil =>
    cases hw
    exact .done
  | cons p ps ih =>
    obtain ⟨part, rest⟩ := p
    obtain hskip | hup | hplain := cut_cases part
    · rw [walkParts, if_pos hskip] at hw
      exact .skip hskip (ih h hw)
    · rw [walkParts, if_neg (by rw [hup]; decide), if_pos hup] at hw
      exact .up hup (ih h hw)
    · rw [walkParts_plain hplain] at hw
      cases hc : k.findIn n (cut part) with
      | none =>
        rw [hc] at hw
        obtain ⟨q, hs, hq⟩ := findMounted_asks env k n (cut part) rest
        cases hx : findTo env j q "/dev".toList with
        | none =>
          refine .miss hplain hc fun find => hq (fun x he => ?_) hw
          rw [hx] at he
          cases he
        | some x =>
          obtain ⟨i, rfl, hi⟩ := hnext (h.same hs) hx
          refine .ask hplain hc hs (fun find hf => hq (fun y he => ?_) hw) (hroot hi)
          rw [hx] at he
          rw [← he]
          exact hf
      | some c =>
        rw [hc] at hw
        dsimp only at hw
        by_cases hl : (k.node c).type = .symlink
        · rw [h.round hl] at hw
          obtain ⟨⟨next, k1⟩, hf, hw⟩ := Option.bind_eq_some_iff.mp hw
          obtain ⟨t, ht, hf⟩ := Option.bind_eq_some_iff.mp hf
          obtain ⟨text, rfl⟩ := linkTarget_slash ht
          obtain ⟨i, rfl, hi⟩ := hnext h hf
          cases next with
          | none =>
            cases hw
            exact .broken hplain hc hl ht (hroot hi)
          | some m => exact .link hplain hc hl ht (hroot hi) (ih (h.after hf) hw)
        · rw [followLinks, if_neg hl] at hw
          exact .child hplain hc hl (ih h hw)

/-- With enough fuel a walk that has an end comes there. -/
theorem Unwinds.comes (hu : Unwinds env d k n ps r k') (h : Grounded k) :
    ∃ N, ∀ fuel, N ≤ fuel → walkParts { env with fuel } (findTo { env with fuel } d) ps n k =
      some (r, k') := by
  induction hu with
  | done => exact ⟨0, fun _ _ => rfl⟩
  | skip hskip _ ih =>
    obtain ⟨N, hN⟩ := ih h
    refine ⟨N, fun fuel hf => ?_⟩
    rw [walkParts, if_pos hskip]
    exact hN fuel hf
  | up hup _ ih =>
    obtain ⟨N, hN⟩ := ih h
    refine ⟨N, fun fuel hf => ?_⟩
    rw [walkParts, if_neg (by rw [hup]; decide), if_pos hup]
    exact hN fuel hf
  | child hp hc hl _ ih =>
    obtain ⟨N, hN⟩ := ih h
    refine ⟨N, fun fuel hf => ?_⟩
    rw [walkParts_plain hp, hc]
    dsimp only
    rw [followLinks, if_neg hl]
    exact hN fuel hf
  | @link d k n part rest ps c F text m k1 r k' hp hc hl ht _ _ ih1 ih2 =>
    obtain ⟨t, rfl⟩ := linkTarget_slash ht
    obtain ⟨N1, hN1⟩ := ih1 h
    have hsearch : ∀ fuel, N1 ≤ fuel →
        findTo { env with fuel } (d + 1) k ('/' :: t) = some (some m, k1) := fun fuel hf =>
      findTo_rooted.trans (hN1 fuel hf)
    obtain ⟨N2, hN2⟩ := ih2 (h.after (hsearch N1 (Nat.le_refl N1)))
    refine ⟨max F (max N1 N2), fun fuel hf => ?_⟩
    have htarget : k.linkTarget { env with fuel } c = some ('/' :: t) :=
      linkTarget_mono ht (Nat.le_trans (Nat.le_max_left ..) hf)
    rw [walkParts_plain hp, hc]
    dsimp only
    rw [h.round hl, htarget, Option.bind_some, hsearch fuel (by omega), Option.bind_some]
    exact hN2 fuel (by omega)
  | @broken d k n part rest ps c F text k1 hp hc hl ht _ ih =>
    obtain ⟨t, rfl⟩ := linkTarget_slash ht
    obtain ⟨N, hN⟩ := ih h
    have hsearch : ∀ fuel, N ≤ fuel →
        findTo { env with fuel } (d + 1) k ('/' :: t) = some (none, k1) := fun fuel hf =>
      findTo_rooted.trans (hN fuel hf)
    refine ⟨max F N, fun fuel hf => ?_⟩
    have htarget : k.linkTarget { env with fuel } c = some ('/' :: t) :=
      linkTarget_mono ht (Nat.le_trans (Nat.le_max_left ..) hf)
    rw [walkParts_plain hp, hc]
    dsimp only
    rw [h.round hl, htarget, Option.bind_some, hsearch fuel (by omega), Option.bind_some]
  | miss hp hc hm =>
    refine ⟨0, fun fuel _ => ?_⟩
    rw [walkParts_plain hp, hc]
    exact hm _
  | ask hp hc hs hm _ ih =>
    obtain ⟨N, hN⟩ := ih (h.same hs)
    refine ⟨N, fun fuel hf => ?_⟩
    rw [walkParts_plain hp, hc]
    exact hm _ (findTo_rooted.trans (hN fuel hf))

/-- What `find` returns has been found along the path. -/
theorem Grounded.unwindsPath (h : Grounded k) (hf : findTo env (j + 1) k path = some (r, k')) :
    UnwindsPath env j k path r k' := by
  induction j generalizing k path r k' with
  | zero =>
    unfold UnwindsPath
    split
    · rename_i hnil
      rw [hnil] at hf
      cases hf
      exact ⟨rfl, rfl⟩
    · rename_i hne
      rw [findTo_parts hne] at hf
      exact h.unwinds nofun hf
  | succ j ih =>
    unfold UnwindsPath
    split
    · rename_i hnil
      rw [hnil] at hf
      cases hf
      exact ⟨rfl, rfl⟩
    · rename_i hne
      rw [findTo_parts hne] at hf
      exact h.unwinds (fun hk hf => ⟨j, rfl, ih hk hf⟩) hf

theorem UnwindsPath.found (hu : UnwindsPath env d k path r k') (h : Grounded k) :
    ∃ N, ∀ fuel, N ≤ fuel → findTo { env with fuel } (d + 1) k path = some (r, k') := by
  unfold UnwindsPath at hu
  split at hu
  · rename_i hnil
    obtain ⟨rfl, rfl⟩ := hu
    rw [hnil]
    exact ⟨0, fun _ _ => rfl⟩
  · rename_i hne
    obtain ⟨N, hN⟩ := hu.comes h
    exact ⟨N, fun fuel hf => (findTo_parts hne).trans (hN fuel hf)⟩

theorem Unwinds.refuel {fuel : Nat} (hu : Unwinds { env with fuel } d k n ps r k') :
    Unwinds env d k n ps r k' := by
  induction hu with
  | done => exact .done
  | skip hskip _ ih => exact .skip hskip ih
  | up hup _ ih => exact .up hup ih
  | child hp hc hl _ ih => exact .child hp hc hl ih
  | link hp hc hl ht _ _ ih1 ih2 => exact .link hp hc hl ht ih1 ih2
  | broken hp hc hl ht _ ih => exact .broken hp hc hl ht ih
  | miss hp hc hm => exact .miss hp hc hm
  | ask hp hc hs hm _ ih => exact .ask hp hc hs hm ih

end unwinding

/-- `find` returns, with at most `d` calls of itself nested in each other, and with no node if the
path has no end. -/
def Returns (env : Env) (d : Nat) (k : Kernel) (path : List Char) : Prop :=
  ∃ r k', (∃ N, ∀ fuel, N ≤ fuel → findTo { env with fuel } (d + 1) k path = some (r, k')) ∧
    ((∀ e x q, ¬ UnwindsPath env e k path x q) → r = none)

/-- `find` returns with at most `d` nested calls exactly when the links that the path leads through
nest at most `d` deep. -/
theorem find_returns_iff (h : Grounded k) :
    Returns env d k path ↔ ∃ r k', UnwindsPath env d k path r k' := by
  constructor
  · rintro ⟨r, k', ⟨N, hN⟩, -⟩
    have hu := h.unwindsPath (hN N (Nat.le_refl N))
    refine ⟨r, k', ?_⟩
    unfold UnwindsPath at hu ⊢
    split at hu
    · rename_i hnil
      rw [if_pos hnil]
      exact hu
    · rename_i hne
      rw [if_neg hne]
      exact hu.refuel
  · rintro ⟨r, k', hu⟩
    exact ⟨r, k', hu.found h, fun hno => absurd hu (hno d r k')⟩


section trees

theorem WellFormed.rooted (h : WellFormed k) : Rooted k where
  used hn := h.used_of_linked hn
  up hd hc := (h.parent_of_child (h.used_of_linked hd) hc).1
  nodup hd := (h.siblings _ (h.used_of_linked hd)).of_map _
  top := h.top.1

theorem WellFormed.grounded (h : WellFormed k) (hr : (k.node k.root).type ≠ .symlink) :
    Grounded k where
  toRooted := h.rooted
  rootNode := hr

/-- The text of the link `/usr/l`, walked along without another link. -/
theorem libTree_unwinds_link : Unwinds quietEnv 0 libTree libTree.root
    (parts ("/usr/lib".toList.length + 1) "/usr/lib".toList) (some 2) libTree := by
  have hparts : parts ("/usr/lib".toList.length + 1) "/usr/lib".toList =
      [([], some "usr/lib".toList), ("usr".toList, some "lib".toList), ("lib".toList, none)] := by
    decide
  rw [hparts]
  refine .skip (Or.inl rfl) (.child (c := 1) (by decide) (by decide) (by decide) ?_)
  exact .child (c := 2) (by decide) (by decide) (by decide) .done

theorem find_returns_iff_lib : Grounded libTree ∧
    Returns quietEnv 1 libTree "/usr/l/x".toList := by
  have hg : Grounded libTree := libTree_wellFormed.grounded (by decide)
  refine ⟨hg, (find_returns_iff hg).mpr ⟨some 4, libTree, ?_⟩⟩
  have hparts : parts ("/usr/l/x".toList.length + 1) "/usr/l/x".toList =
      [([], some "usr/l/x".toList), ("usr".toList, some "l/x".toList), (['l'], some ['x']),
        (['x'], none)] := by decide
  unfold UnwindsPath
  rw [if_neg (by decide), hparts]
  refine .skip (Or.inl rfl) (.child (c := 1) (by decide) (by decide) (by decide) ?_)
  refine .link (c := 3) (by decide) (by decide) (by decide)
    (show libTree.linkTarget quietEnv 3 = some "/usr/lib".toList by decide)
    libTree_unwinds_link ?_
  exact .child (c := 4) (by decide) (by decide) (by decide) .done

/-- A link to itself in the root directory is never found. -/
theorem findTo_self_link (hc : k.findIn k.root ['l'] = some c) (ht : (k.node c).type = .symlink)
    (hs : (k.node c).symlink = "/l".toList) (env : Env) (j : Nat) :
    findTo env j k "/l".toList = none := by
  have htarget : k.linkTarget env c = some "/l".toList := by
    unfold linkTarget
    rw [hs]
    rfl
  induction j with
  | zero => rfl
  | succ j ih =>
    have hparts : parts 2 ['l'] = [(['l'], none)] := by decide
    change walkParts env (findTo env j) (parts 2 ['l']) k.root k = none
    rw [hparts, walkParts_plain (by decide)]
    change (match k.findIn k.root ['l'] with | none => _ | some c => _) = none
    rw [hc]
    dsimp only
    rw [followLinks, if_pos ht]
    dsimp only
    rw [htarget, Option.bind_eq_bind, Option.bind_some, ih]
    rfl

/-- After `ln -s /l /l` the search for `/l` does not end, however deep it nests. -/
theorem self_link_endless : ∃ k, boot.runAll [(freshEnv,
      .createSymlinkPath "/l".toList "/l".toList)] = some k ∧ Grounded k ∧
    (∀ env j, findTo env j k "/l".toList = none) ∧
    ¬ ∃ d, ∀ env k path, Grounded k → Returns env d k path := by
  have hrun : (boot.runAll [(freshEnv, .createSymlinkPath "/l".toList "/l".toList)]).any (fun k =>
      k.findIn k.root ['l'] = some 1 ∧ (k.node 1).type = .symlink ∧
        (k.node 1).symlink = "/l".toList ∧ (k.node k.root).type ≠ .symlink) = true := by
    decide +kernel
  obtain ⟨k, hk, h⟩ := any_exists hrun
  obtain ⟨hc, ht, hs, hroot⟩ := of_decide_eq_true h
  have hreach : Reached (fun _ _ _ => True) k := Reached.boot.runAll (fun _ _ _ => trivial) hk
  have hg : Grounded k := ⟨hreach.rooted, hroot⟩
  refine ⟨k, hk, hg, findTo_self_link hc ht hs, fun hall => ?_⟩
  obtain ⟨d, hd⟩ := hall
  obtain ⟨r, k', ⟨N, hN⟩, -⟩ := hd freshEnv k "/l".toList hg
  have hnone := hN N (Nat.le_refl N)
  rw [findTo_self_link hc ht hs] at hnone
  cases hnone

end trees

end LosTacOS.Os.Kernel
