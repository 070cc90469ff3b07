import LosTacOS.Fat.Moves

/-! Writing a file extends its chain and leaves every other file alone. -/
namespace LosTacOS.Fat

open ByteMemory

namespace View

variable {V W X : View} {c d i n x : Nat} {l : List Nat}

theorem Keeps.trans (h : Keeps V W) (h' : Keeps W X) : Keeps V X where
  limit := h'.limit.trans h.limit
  slots := h'.slots.trans h.slots
  root := h'.root.trans h.root
  fat := fun hc => (h'.fat (h.dirCluster.mpr hc)).trans (h.fat hc)
  mark := fun hc hi =>
    (h'.mark (h.dirCluster.mpr hc) (h.slots.symm ▸ hi)).trans (h.mark hc hi)
  attr := fun hc hi =>
    (h'.attr (h.dirCluster.mpr hc) (h.slots.symm ▸ hi)).trans (h.attr hc hi)
  first := fun hc hi hdir =>
    (h'.first (h.dirCluster.mpr hc) (h.slots.symm ▸ hi) ((h.attr hc hi).symm ▸ hdir)).trans
      (h.first hc hi hdir)

theorem Runs.unique {l' : List Nat} (h : V.Runs n l) (h' : V.Runs n l') : l = l' :=
  h.chain.unique h'.chain

end View

namespace Volume

variable {v w x : Volume} {c d i n y : Nat} {l : List Nat}

structure Writes (c i : Nat) (v w : Volume) : Prop where
  like : Like v w
  keeps : View.Keeps v.view w.view
  wellFormed : w.view.WellFormed
  copies : v.Copies → w.Copies
  used : ∀ {d}, v.view.InRange d → v.readFat d ≠ 0 → w.readFat d ≠ 0
  others : ∀ {c' i'}, v.view.Entry c' i' → (c', i') ≠ (c, i) →
    w.view.first c' i' = v.view.first c' i' ∧
      ∀ {l}, v.view.Runs (v.view.first c' i') l → w.view.Runs (v.view.first c' i') l
  bytes : ∀ a, v.bpb.dataAddr ≤ a → w.image a ≠ v.image a → InFields v.bpb c i a ∨
    ∃ l d, w.view.Runs (w.view.first c i) l ∧ d ∈ l ∧ InCluster v.bpb d a

structure Extends (c i : Nat) (v w : Volume) : Prop extends Writes c i v w where
  fixed : v.view.first c i ≠ 0 → w.view.first c i = v.view.first c i
  grows : ∀ {l}, v.view.Runs (v.view.first c i) l → ∃ l', w.view.Runs (w.view.first c i) (l ++ l')

theorem Extends.refl (hwf : v.view.WellFormed) : Extends c i v v where
  like := Like.rfl
  keeps := ⟨rfl, rfl, rfl, fun _ => rfl, fun _ _ => rfl, fun _ _ => rfl, fun _ _ _ => rfl⟩
  wellFormed := hwf
  copies := id
  used := fun _ => id
  others := fun _ _ => ⟨rfl, id⟩
  bytes := fun _ _ hne => absurd rfl hne
  fixed := fun _ => rfl
  grows := fun {l} hl => ⟨[], by simpa using hl⟩

theorem Writes.trans (h : Writes c i v w) (h' : Extends c i w x) : Writes c i v x where
  like := h.like.trans h'.like
  keeps := h.keeps.trans h'.keeps
  wellFormed := h'.wellFormed
  copies := fun hv => h'.copies (h.copies hv)
  used := fun hd h0 => h'.used (h.like.inRange.mpr hd) (h.used hd h0)
  others := fun he' hne => by
    obtain ⟨h1, h2⟩ := h.others he' hne
    obtain ⟨h3, h4⟩ := h'.others (h.keeps.entry.mpr he') hne
    refine ⟨h3.trans h1, fun hl => ?_⟩
    have := h2 hl
    rw [← h1] at this ⊢
    exact h4 this
  bytes := fun a ha hne => by
    have hbpb := h.like.bpb
    by_cases hw : w.image a = v.image a
    · rw [← hw] at hne
      have := h'.bytes a (hbpb.symm ▸ ha) hne
      rwa [hbpb] at this
    · rcases h.bytes a ha hw with hin | ⟨l, d, hl, hd, hin⟩
      · exact .inl hin
      · obtain ⟨l', hl'⟩ := h'.grows hl
        exact .inr ⟨_, d, hl', List.mem_append_left l' hd, hin⟩

theorem Extends.trans (h : Extends c i v w) (h' : Extends c i w x) : Extends c i v x where
  toWrites := h.toWrites.trans h'
  fixed := fun hne => by
    have hw := h.fixed hne
    exact (h'.fixed (hw.symm ▸ hne)).trans hw
  grows := fun hl => by
    obtain ⟨l', hl'⟩ := h.grows hl
    obtain ⟨l'', hl''⟩ := h'.grows hl'
    exact ⟨l' ++ l'', by rwa [← List.append_assoc]⟩

theorem extends_same (hwf : v.view.WellFormed) (hlike : Like v w)
    (hkeeps : View.Keeps v.view w.view) (hcopies : v.Copies → w.Copies)
    (hfat : ∀ d, v.view.InRange d → w.readFat d = v.readFat d)
    (hfirst : ∀ {c' i'}, v.view.Entry c' i' → w.view.first c' i' = v.view.first c' i')
    (he : v.view.Entry c i)
    (hbytes : ∀ a, w.image a ≠ v.image a → InFields v.bpb c i a ∨
      ∃ l d, v.view.Runs (v.view.first c i) l ∧ d ∈ l ∧ InCluster v.bpb d a) :
    Extends c i v w := by
  have hruns : ∀ {n l}, v.view.Runs n l → w.view.Runs n l := fun {n l} hl =>
    hl.carry hlike.view_limit fun d hd => hfat d (hl.inRange d hd)
  refine ⟨⟨hlike, hkeeps, hwf.take hkeeps (fun d hd => .inl (hfat d hd)) hfirst, hcopies,
    fun {d} hd h0 => hfat d hd ▸ h0, fun he' _ => ⟨hfirst he', hruns⟩, fun a _ hne => ?_⟩,
    fun _ => hfirst he, fun {l} hl => ⟨[], ?_⟩⟩
  · rcases hbytes a hne with hin | ⟨l, d, hl, hd, hin⟩
    · exact .inl hin
    · refine .inr ⟨l, d, ?_, hd, hin⟩
      rw [hfirst he]
      exact hruns hl
  · rw [List.append_nil, hfirst he]
    exact hruns hl

theorem Changes.extends_cluster (h : Changes v w (InCluster v.bpb y)) (hv : v.Formatted)
    (hwf : v.view.WellFormed) (he : v.view.Entry c i)
    (hattr : isDirectory (v.view.attr c i) = false) (hl : v.view.Runs (v.view.first c i) l)
    (hy : y ∈ l) : Extends c i v w := by
  have hno := hwf.not_dirCluster he hattr hl hy
  have hy2 := (hl.inRange y hy).1
  refine extends_same hwf h.like (h.keeps_cluster hv hy2 hno) (fun hcopies => ?_) (fun d hd => ?_)
    (fun {c' i'} he' => ?_) he (fun a hne => .inr ⟨l, y, hl, hy, ?_⟩)
  · refine hcopies.of_same hv h.like fun a hlt => h.same a fun hin => ?_
    have := inCluster_data hin
    omega
  · exact h.readFat hv (fun a => inCluster_data) hd.2
  · obtain ⟨hdir, hi'⟩ := he'.dirCluster
    refine h.like.first fun k _ hk => h.same _ fun hin => hno ?_
    have := InCluster.unique hy2 hdir.inRange.1 hin (slot_inCluster hi' hk)
    rwa [this]
  · by_contra hout
    exact hne (h.same a hout)

theorem Changes.extends_fields (h : Changes v w (InFields v.bpb c i)) (hv : v.Formatted)
    (hwf : v.view.WellFormed) (he : v.view.Entry c i)
    (hattr : isDirectory (v.view.attr c i) = false)
    (hfirst : w.view.first c i = v.view.first c i) : Extends c i v w := by
  obtain ⟨hdir, hi⟩ := he.dirCluster
  have hc := hdir.inRange.1
  have hdata : ∀ a, InFields v.bpb c i a → v.bpb.dataAddr ≤ a := fun a ha =>
    inCluster_data (ha.inCluster hi)
  refine extends_same hwf h.like (h.keeps_fields hv hc hi hattr) (fun hcopies => ?_)
    (fun d hd => ?_) (fun {c' i'} he' => ?_) he (fun a hne => .inl ?_)
  · refine hcopies.of_same hv h.like fun a hlt => h.same a fun hin => ?_
    have := hdata a hin
    omega
  · exact h.readFat hv hdata hd.2
  · by_cases heq : (c', i') = (c, i)
    · cases heq
      exact hfirst
    · obtain ⟨hdir', hi'⟩ := he'.dirCluster
      refine h.like.first fun k _ hk => h.same _ fun hin => ?_
      obtain ⟨h1, h2⟩ := hin
      rcases slotAddr_apart v hdir'.inRange.1 hc hi' hi heq with h | h <;> omega
  · by_contra hout
    exact hne (h.same a hout)

section alloc

variable {u : Volume}

/-- A free cluster is no directory, so taking it is seen by nobody. -/
theorem Allocs.keeps (h : Allocs v u n) (hwf : v.view.WellFormed) :
    View.Keeps v.view u.view := by
  have hne : ∀ d, v.view.DirCluster d → d ≠ n := by
    rintro d hd rfl
    exact hd.fat_ne hwf h.free
  have hslot : ∀ d j, v.view.DirCluster d → j < v.view.slots → ∀ k < entrySize,
      u.image (v.bpb.slotAddr d j + k) = v.image (v.bpb.slotAddr d j + k) := by
    intro d j hd hj k hk
    have hin := slot_inCluster (c := d) hj hk
    refine h.data (inCluster_data hin) fun hin' => hne d hd ?_
    exact InCluster.unique hd.inRange.1 h.inRange.1 hin hin'
  exact h.like.keeps (fun d hd => h.rest hd.inRange.2 (hne d hd))
    (fun d j hd hj k hk => hslot d j hd hj k (hk.trans (by decide)))
    (fun d j hd hj _ => h.like.first fun k _ hk => hslot d j hd hj k hk)

theorem Allocs.first (h : Allocs v u n) (hwf : v.view.WellFormed) {c i : Nat}
    (he : v.view.Entry c i) : u.view.first c i = v.view.first c i := by
  obtain ⟨hdir, hi⟩ := he.dirCluster
  refine h.like.first fun k _ hk => ?_
  have hin := slot_inCluster (c := c) hi hk
  refine h.data (inCluster_data hin) fun hin' => ?_
  have := InCluster.unique hdir.inRange.1 h.inRange.1 hin hin'
  subst this
  exact hdir.fat_ne hwf h.free

theorem Allocs.takes (h : Allocs v u n) : View.Takes v.view u.view := by
  intro d hd
  by_cases hdn : d = n
  · subst hdn
    refine .inr ⟨h.free, ?_⟩
    show endOfChain ≤ u.readFat d
    rw [h.taken]
    decide
  · exact .inl (h.rest hd.2 hdn)

theorem Allocs.wellFormed (h : Allocs v u n) (hwf : v.view.WellFormed) :
    u.view.WellFormed ∧ u.view.Fresh n := by
  have hend : endOfChain ≤ u.view.fat n := by
    show endOfChain ≤ u.readFat n
    rw [h.taken]
    decide
  exact ⟨hwf.take (h.keeps hwf) h.takes (h.first hwf),
    hwf.take_fresh (h.keeps hwf) h.takes (h.first hwf) h.inRange h.free hend⟩

theorem Allocs.used (h : Allocs v u n) {d : Nat} (hd : v.view.InRange d) (h0 : v.readFat d ≠ 0) :
    u.readFat d ≠ 0 := by
  have hne : d ≠ n := by
    rintro rfl
    exact h0 h.free
  rwa [h.rest hd.2 hne]

theorem Allocs.extends_link (h : Allocs v u n)
    (hput : PutsFat u w y n (List.range u.bpb.numFats)) (hv : v.Formatted)
    (hwf : v.view.WellFormed) (he : v.view.Entry c i)
    (hattr : isDirectory (v.view.attr c i) = false) (hl : v.view.Runs (v.view.first c i) l)
    (hy : y ∈ l) (hlast : endOfChain ≤ v.readFat y) :
    Extends c i v w ∧ w.view.Runs (v.view.first c i) (l ++ [n]) := by
  obtain ⟨hwfu, hfresh⟩ := h.wellFormed hwf
  have hu := h.like.formatted hv
  have hkeeps := h.keeps hwf
  have heu := hkeeps.entry.mpr he
  have hattru : isDirectory (u.view.attr c i) = false := by
    rw [hkeeps.entry_attr he]
    exact hattr
  have hlu : u.view.Runs (u.view.first c i) l := by
    rw [h.first hwf he]
    exact h.takes.runs h.like.view_limit hl
  have hyr := hlu.inRange y hy
  have hne : y ≠ n := by
    rintro rfl
    exact hl.fat_ne hy h.free
  have hn28 : n < endOfChain := lt_of_lt_of_le h.inRange.2 hv.marks
  have hfat : w.readFat y = n := by
    rw [hput.readFat_self hu hyr.2]
    exact Nat.mod_eq_of_lt (hn28.trans (by decide))
  have hfirstw : ∀ {c' i'}, u.view.Entry c' i' → w.view.first c' i' = u.view.first c' i' := by
    intro c' i' he'
    refine hput.like.first fun k _ hk => ?_
    exact hput.data hu hyr.2 (inCluster_data (slot_inCluster he'.dirCluster.2 hk))
  have hkw := hput.keeps hu hyr.2 (hwfu.not_dirCluster heu hattru hlu hy)
  have hnext : u.view.next y = none := by
    refine if_pos ?_
    show endOfChain ≤ u.readFat y
    rw [h.rest (hl.inRange y hy).2 hne]
    exact hlast
  have hlinks : View.Links u.view w.view y n :=
    ⟨hyr, hnext, hfat, fun d hd hdy => hput.readFat_ne hu hyr.2 hd.2 hdy, hfirstw⟩
  have hruns : ∀ {a l'}, u.view.Runs a l' → w.view.Runs a (if y ∈ l' then l' ++ [n] else l') :=
    fun hl' => hlinks.runs hput.like.view_limit hfresh hne hn28 hl'
  have hfirst : ∀ {c' i'}, v.view.Entry c' i' → w.view.first c' i' = v.view.first c' i' :=
    fun he' => (hfirstw (hkeeps.entry.mpr he')).trans (h.first hwf he')
  have hlw := hruns hlu
  rw [if_pos hy, h.first hwf he] at hlw
  refine ⟨⟨⟨h.like.trans hput.like, hkeeps.trans hkw,
    hwfu.link hkw hlinks hfresh hne hn28, fun hcopies => hput.copies hu hyr.2 (h.copies hcopies),
    fun {d} hd h0 => ?_, fun {c' i'} he' hne' => ⟨hfirst he', ?_⟩, fun a ha hne => ?_⟩,
    fun _ => hfirst he, fun {l'} hl' => ⟨[n], ?_⟩⟩, hlw⟩
  · have hdu := h.used hd h0
    by_cases hdy : d = y
    · subst hdy
      rw [hfat]
      have := h.inRange.1
      omega
    · rwa [hput.readFat_ne hu hyr.2 (h.like.inRange.mpr hd).2 hdy]
  · intro l' hl'
    have hlu' := h.takes.runs h.like.view_limit hl'
    have hnot : y ∉ l' := by
      intro hy'
      have := hwf.apart (show v.view.Points (.entry c' i') _ from ⟨he', rfl⟩)
        (show v.view.Points (.entry c i) _ from ⟨he, rfl⟩) (fun _ hc => View.Source.noConfusion hc)
        (fun _ hc => View.Source.noConfusion hc) hl' hl hy' hy
      cases this
      exact hne' rfl
    have := hruns hlu'
    rwa [if_neg hnot] at this
  · refine .inr ⟨l ++ [n], n, ?_, by simp, ?_⟩
    · rw [hfirst he]
      exact hlw
    · by_contra hout
      refine hne ?_
      rw [hput.data hu hyr.2 (h.like.bpb.symm ▸ ha), h.data ha hout]
  · rw [hl'.unique hl, hfirst he]
    exact hlw

/-- A file gets a first cluster; a chain that it had is lost. -/
theorem Allocs.writes_publish (h : Allocs v u n)
    (hset : Changes u w (InFields u.bpb c i)) (hv : v.Formatted)
    (hwf : v.view.WellFormed) (he : v.view.Entry c i)
    (hattr : isDirectory (v.view.attr c i) = false) (hfirst : w.view.first c i = n) :
    Writes c i v w ∧ w.view.Runs n [n] := by
  obtain ⟨hwfu, hfresh⟩ := h.wellFormed hwf
  have hu := h.like.formatted hv
  have hkeeps := h.keeps hwf
  have heu := hkeeps.entry.mpr he
  obtain ⟨hdir, hi⟩ := heu.dirCluster
  have hattru : isDirectory (u.view.attr c i) = false := by
    rw [hkeeps.entry_attr he]
    exact hattr
  have hdata : ∀ a, InFields u.bpb c i a → u.bpb.dataAddr ≤ a := fun a ha =>
    inCluster_data (ha.inCluster hi)
  have hkw := hset.keeps_fields hu hdir.inRange.1 hi hattru
  have hfat : ∀ d, u.view.InRange d → w.readFat d = u.readFat d :=
    fun d hd => hset.readFat hu hdata hd.2
  have hrest : ∀ {c' i'}, u.view.Entry c' i' → (c', i') ≠ (c, i) →
      w.view.first c' i' = u.view.first c' i' := by
    intro c' i' he' hne
    obtain ⟨hdir', hi'⟩ := he'.dirCluster
    refine hset.like.first fun k _ hk => hset.same _ fun hin => ?_
    obtain ⟨h1, h2⟩ := hin
    rcases slotAddr_apart u hdir'.inRange.1 hdir.inRange.1 hi' hi hne with h | h <;> omega
  have hruns : ∀ {a l'}, u.view.Runs a l' → w.view.Runs a l' := fun {a l'} hl' =>
    hl'.carry hset.like.view_limit fun d hd => hfat d (hl'.inRange d hd)
  have hn : w.view.Runs n [n] := by
    refine hruns ⟨?_, fun d hd => ?_⟩
    · rw [View.headOf, if_neg (by have := h.inRange.1; omega)]
      exact ⟨rfl, hfresh.next⟩
    · rw [List.mem_singleton.mp hd]
      exact hfresh.inRange
  refine ⟨⟨h.like.trans hset.like, hkeeps.trans hkw, hwfu.publish hkw hfat hfresh hfirst hrest,
    fun hcopies => ?_, fun {d} hd h0 => ?_, fun {c' i'} he' hne => ?_, fun a ha hne => ?_⟩, hn⟩
  · refine (h.copies hcopies).of_same hu hset.like fun a hlt => hset.same a fun hin => ?_
    have := hdata a hin
    omega
  · rw [hfat d (h.like.inRange.mpr hd)]
    exact h.used hd h0
  · refine ⟨(hrest (hkeeps.entry.mpr he') hne).trans (h.first hwf he'), fun hl => ?_⟩
    exact hruns (h.takes.runs h.like.view_limit hl)
  · by_cases hin : InFields v.bpb c i a
    · exact .inl hin
    · refine .inr ⟨[n], n, ?_, by simp, ?_⟩
      · rw [hfirst]
        exact hn
      · by_contra hout
        refine hne ?_
        rw [hset.same a (h.like.bpb.symm ▸ hin), h.data ha hout]

end alloc

end Volume

end LosTacOS.Fat
