import LosTacOS.Os.Freed
import LosTacOS.Os.Parents

/-! File data and the root archive. The files that `mount_vfs` makes borrow their data from the
archive, and nothing in the node says so; a call that gives data back treats all of it as a block of
the heap. -/
namespace LosTacOS.Os.Kernel

variable {env : Env} {k k' : Kernel} {n b : Nat} {path : List Char}

section loading

structure Loading (b : Nat) (k : Kernel) : Prop extends Sound k where
  image : b = 0 ∨ b ∈ k.blocks.used
  borrowed : ∀ n ∈ k.nodes.used, ∀ p, k.fileData n = some p → p.off ≠ 0

theorem Loading.quiet (h : Loading b k) (hh : AtHome k') (hq : SameData k k') : Loading b k' := by
  refine ⟨h.toSound.quiet hh hq, ?_, fun n hn p hp => ?_⟩
  · rw [hq.blocks]
    exact h.image
  · obtain ⟨hu, hp', _⟩ := hq.data hn hp
    exact h.borrowed n hu p hp'

theorem loading_nodes (b : Nat) :
    NodeRule env (Loading b) KeepsLinked Linked (fun _ _ _ => True) := by
  have hlift : ∀ {k k'}, Loading b k → AtHome k' ∧ Quiet k k' → Loading b k' ∧ KeepsLinked k k' :=
    fun h hq => ⟨h.quiet hq.1 hq.2.toSameData, hq.2.linked⟩
  have T : NodeRule env AtHome Quiet Linked (fun _ _ _ => True) := home_nodes
  exact {
    refl := fun _ _ h => h
    trans := fun h h' n hn => h' n (h n hn)
    keep := fun h hn => h _ hn
    root := fun h => T.root h.home
    cwd := fun h => T.cwd h.home
    parent := fun h => T.parent h.home
    child := fun h => T.child h.home
    alloc := fun h => hlift h (T.alloc h.home)
    device := fun d h => hlift h (T.device d h.home)
    dev := fun dev h hd hp hc => hlift h (T.dev dev h.home hd hp hc)
    ask := by
      intro k k' n fs found _ _ _ _ _ h _
      apply hlift h
      cases found with
      | false => exact ⟨h.home.of_shape rfl rfl, .of_same rfl (.of_nodes rfl rfl rfl rfl rfl)⟩
      | true => exact ⟨h.home.of_shape rfl rfl, .of_same rfl (.of_nodes rfl rfl rfl rfl rfl)⟩
    create := by
      intro k name d dir n k' h hd hc
      obtain ⟨h1, h2, h3⟩ := T.create h.home hd hc
      obtain ⟨h4, h5⟩ := hlift h ⟨h1, h2⟩
      exact ⟨h4, h5, h3⟩
    link := fun target h hn => hlift h (T.link target h.home hn)
    carry := fun _ _ => trivial
    null := trivial
    volume := by
      intro k fs v h
      obtain ⟨h1, h2, _⟩ := T.volume fs v h.home
      obtain ⟨h3, h4⟩ := hlift h ⟨h1, h2⟩
      exact ⟨h3, h4, trivial⟩
    retype := fun h hn hg => hlift h (T.retype h.home hn hg)
    table := fun h hm hg => hlift h (T.table h.home hm hg) }

theorem attach_data {f : Nat} {x : File} :
    ({ k with files := k.files.alloc f x }.withFile n f).fileData n = x.privateData := by
  have hfile := withFile_file { k with files := k.files.alloc f x } n f n
  rw [if_pos rfl] at hfile
  rw [fileData_eq hfile]
  exact congrArg File.privateData (Arena.alloc_cell_self ..)

theorem Loading.attachFile {off size : Nat} (h : Loading b k) (hoff : off ≠ 0)
    (ha : k.attachFile env n ⟨b, off⟩ size = some k') : Loading b k' ∧ KeepsLinked k k' := by
  unfold Kernel.attachFile at ha
  split at ha
  · cases ha
  rename_i f k1 hk
  obtain ⟨rfl, hfresh⟩ := kmalloc_eq hk
  have hf : f ∉ k.files.used := hfresh f rfl
  have h1 : DataKept { k with allocs := k.allocs + 1 } := h.data.congr rfl rfl rfl rfl
  have hother := Others.attach (n := n) (x := ⟨size, 0, some ⟨b, off⟩⟩) h1 hf
  have hhome : AtHome { k with
      allocs := k.allocs + 1, files := k.files.alloc f ⟨size, 0, some ⟨b, off⟩⟩ } :=
    h.home.of_shape rfl rfl
  have hshape := setNode_shape (k := k) (n := n) (x := { k.node n with file := some f }) rfl rfl
  cases ha
  refine ⟨⟨⟨hhome.of_shape (setNode_shape rfl rfl) rfl, h1.attach hf (fun p hp => ?_) nofun⟩,
    h.image, fun m hm p hp => ?_⟩, .of_shape hshape⟩
  · cases hp
    refine ⟨fun h0 => absurd h0 hoff, h.image, fun m hm _ r hr ho => ?_⟩
    cases ho with
    | inl ho => exact absurd ho hoff
    | inr ho => exact absurd ho (h.borrowed m hm r hr)
  · by_cases hmn : m = n
    · subst hmn
      cases attach_data.symm.trans hp
      exact hoff
    · exact h.borrowed m hm p ((hother.file m hm hmn).2.1.symm.trans hp)

theorem Loading.start (hn : k.nodes = boot.nodes) (hr : k.root = boot.root)
    (hc : k.getProcessCwd = k.root) (hz : 0 ∉ k.blocks.used) (hb : b = 0 ∨ b ∈ k.blocks.used) :
    Loading b k := by
  have hfile : ∀ n, (k.node n).file = none := by
    intro n
    unfold node
    rw [hn]
    rfl
  have hdata : ∀ n, k.fileData n = none := by
    intro n
    unfold fileData
    rw [hfile]
    rfl
  have hshape : k.shape = boot.shape := by
    unfold shape node
    rw [hn, hr]
  have hkept : DataKept k := by
    refine ⟨fun n _ f hf => ?_, fun n _ m _ f hf => ?_, hz, fun n _ p hp => ?_, fun n _ p hp => ?_,
      fun n _ m _ p q hp => ?_, fun n _ _ => ?_⟩
    · exact absurd hf (by rw [hfile]; exact nofun)
    · exact absurd hf (by rw [hfile]; exact nofun)
    · exact absurd hp (by rw [hdata]; exact nofun)
    · exact absurd hp (by rw [hdata]; exact nofun)
    · exact absurd hp (by rw [hdata]; exact nofun)
    · unfold fileSize
      rw [hfile]
      rfl
  refine ⟨⟨⟨boot_rooted.of_shape hshape, hc⟩, hkept⟩, hb, fun n _ p hp => ?_⟩
  exact absurd hp (by rw [hdata]; exact nofun)

/-- Whatever archive is loaded on the tree after boot: each block of the heap belongs to one file
afterwards, as the invariant of the calls wants it. -/
theorem mountRootfs_sound {archive : Nat → UInt8} {size : Nat} {unpacked : Option (List UInt8)}
    (h : boot.mountRootfs env archive size unpacked = some k) : Sound k := by
  have hrun : ∀ {b rounds size image q}, Loading b q →
      mountVfs env image size b rounds 0 q = some k → Sound k := by
    intro b rounds size image q hq hm
    exact ((loading_nodes b).mountVfs hq (fun hl _ => hl.attachFile (Nat.succ_ne_zero _)) hm).1.1
  have hplain : Loading 0 { boot with blocks := boot.blocks.set 0 archive } :=
    .start rfl rfl rfl nofun (Or.inl rfl)
  unfold mountRootfs at h
  cases unpacked with
  | none => exact hrun hplain h
  | some bytes =>
    dsimp only at h
    split at h
    · exact hrun hplain h
    · rename_i b k1 hb
      obtain ⟨hfresh, rfl⟩ := allocBlock_some hb
      -- the block of the image is the only one there is
      refine hrun ?_ h
      refine .start rfl rfl rfl (fun hz => ?_) (Or.inr (Finset.mem_insert_self b _))
      cases Finset.mem_insert.mp hz with
      | inl hz => exact hfresh (hz ▸ Finset.mem_insert_self 0 _)
      | inr hz => cases hz

end loading

section runs

/-- The states of the runs over a root archive, each call as `ok` demands. What else happens in
between leaves the tree, the data of files and the current directory alone. -/
inductive OnRootfs (ok : Env → Kernel → Event → Prop) : Kernel → Prop
  | loaded {env : Env} {archive : Nat → UInt8} {size : Nat} {unpacked : Option (List UInt8)}
      {k : Kernel} (h : boot.mountRootfs env archive size unpacked = some k) : OnRootfs ok k
  | call {env : Env} {k k' : Kernel} {ev : Event} {r : Reply} (hk : OnRootfs ok k)
      (hev : onData ev = true) (hok : ok env k ev) (hs : k.step env ev = some (r, k')) :
      OnRootfs ok k'
  | between {k k' : Kernel} (hk : OnRootfs ok k) (he : Elsewhere k k') : OnRootfs ok k'

theorem OnRootfs.sound (h : OnRootfs (fun env k ev => k.SparesArchive env ev) k) : Sound k := by
  induction h with
  | loaded h => exact mountRootfs_sound h
  | call _ hev hok hs ih => exact (ih.step hev hok hs).1
  | between _ he ih => exact ih.elsewhere he

end runs

end LosTacOS.Os.Kernel
