import LosTacOS.Heap.Runs

/-! `kmalloc` fails only when no free block is large enough, and freeing everything in any order
leaves the heap as it was after `heap::init`. -/
namespace LosTacOS.Heap
open ByteMemory

theorem Layout.malloc_none {L : Layout} {need : Nat} :
    L.malloc need = none ↔ ∀ b ∈ L.blocks, fits need b = false := by
  have hsplit : ∀ b, b ∈ L.blocks ↔ b ∈ L.blocks.take L.cursor ∨ b ∈ L.blocks.drop L.cursor := by
    intro b
    rw [← List.mem_append, List.take_append_drop]
  unfold Layout.malloc
  cases hd : firstFit need (L.blocks.drop L.cursor) with
  | some w =>
    obtain ⟨u, b, v⟩ := w
    obtain ⟨he, hb, -⟩ := firstFit_some hd
    refine ⟨fun h => (by cases h), fun h => ?_⟩
    rw [h b ((hsplit b).mpr (.inr (by simp [he])))] at hb
    cases hb
  | none =>
    have hnone := firstFit_none.mp hd
    cases ht : firstFit need (L.blocks.take L.cursor) with
    | some w =>
      obtain ⟨u, b, v⟩ := w
      obtain ⟨he, hb, -⟩ := firstFit_some ht
      refine ⟨fun h => (by cases h), fun h => ?_⟩
      rw [h b ((hsplit b).mpr (.inl (by simp [he])))] at hb
      cases hb
    | none =>
      refine ⟨fun _ b hb => ?_, fun _ => rfl⟩
      rcases (hsplit b).mp hb with hb | hb
      · exact firstFit_none.mp ht b hb
      · exact hnone b hb

theorem Layout.Ok.all_free {total : Nat} {L : Layout} (h : L.Ok total)
    (hfree : ∀ b ∈ L.blocks, b.free = true) : L.blocks = [⟨total - 32, true⟩] := by
  obtain ⟨bs, k⟩ := L
  cases bs with
  | nil => exact absurd h.cursor_lt (by simp)
  | cons b bs =>
    cases bs with
    | nil =>
      have hs := h.span_eq
      have hb := hfree b (by simp)
      simp only [span_cons, span_nil] at hs
      obtain ⟨size, free⟩ := b
      simp only at hb hs
      rw [hb, show size = total - 32 by omega]
    | cons c bs =>
      have hap := (List.isChain_cons_cons.mp h.coalesced).1
      exact absurd ⟨hfree b (by simp), hfree c (by simp)⟩ hap

def links (a : Nat) : List Blk → List Block
  | [] => []
  | b :: bs => ⟨a, b.size, b.free, a + 32 + b.size⟩ :: links (a + 32 + b.size) bs

theorem views_append (a : Nat) (u : List Blk) {w : List Blk} (hw : w ≠ []) :
    views a (u ++ w) = links a u ++ views (a + span u) w := by
  induction u generalizing a with
  | nil => simp [links]
  | cons b u ih =>
    have hne : u ++ w ≠ [] := by simp [hw]
    simp only [List.cons_append, views, links, if_neg hne, ih]
    rw [show a + 32 + b.size + span u = a + span (b :: u) by simp only [span_cons]; omega]

theorem mem_links {a : Nat} {u : List Blk} {x : Block} (h : x ∈ links a u) :
    x.addr + 32 + x.size ≤ a + span u := by
  induction u generalizing a with
  | nil => cases h
  | cons b u ih =>
    rcases List.mem_cons.mp h with rfl | h
    · simp only [span_cons]
      omega
    · have := ih h
      simp only [span_cons]
      omega

theorem le_mem_views {a : Nat} {u : List Blk} {x : Block} (h : x ∈ views a u) : a ≤ x.addr := by
  obtain ⟨w, b, v, -, ha, -, -⟩ := mem_views h
  omega

/-- A block of the list whose payload lies at `p`. -/
def At (p : Nat) (b : Block) : Prop := b.addr + sizeofBlock = p

/-- What `kmalloc` does to the list of blocks: one free block is taken, at its start, and what is
left of it may become a free block of its own. -/
structure Takes (bs bs' : List Block) (p need : Nat) : Prop where
  taken : ∃ b ∈ bs, At p b ∧ b.free = true ∧ need ≤ b.size ∧
    ∀ x ∈ bs', x ∈ bs ∨ At p x ∨
      (x.free = true ∧ b.addr < x.addr ∧ x.addr + sizeofBlock + x.size = b.addr + sizeofBlock + b.size)
  block : ∃ x ∈ bs', At p x ∧ x.free = false ∧ need ≤ x.size
  apart : ∀ b ∈ bs, b.free = false → ∀ x ∈ bs', At p x →
    p + x.size ≤ b.addr + sizeofBlock ∨ b.addr + sizeofBlock + b.size ≤ p
  kept : ∀ b ∈ bs, ¬ At p b → b ∈ bs'

theorem takes_of_carve (a : Nat) {u v : List Blk} {b : Blk} {need : Nat}
    (hb : fits need b = true) :
    Takes (views a (u ++ b :: v)) (views a (u ++ carve need b ++ v)) (a + span u + 32) need := by
  have hfit : b.free = true ∧ need ≤ b.size := by simpa [fits] using hb
  have hold : views a (u ++ b :: v) = links a u ++ views (a + span u) (b :: v) :=
    views_append a u (by simp)
  have hnew : views a (u ++ carve need b ++ v) =
      links a u ++ views (a + span u) (carve need b ++ v) := by
    rw [List.append_assoc]
    exact views_append a u (by simp [carve_ne_nil])
  obtain ⟨x, rest, hx, haddr, hused, hsize, hle, hrest, hsub⟩ : ∃ x rest,
      views (a + span u) (carve need b ++ v) = x :: rest ∧ x.addr = a + span u ∧ x.free = false ∧
      need ≤ x.size ∧ x.size ≤ b.size ∧
      (∀ y ∈ rest, y ∈ views (a + span u + 32 + b.size) v ∨
        (y.free = true ∧ a + span u < y.addr ∧ y.addr + 32 + y.size = a + span u + 32 + b.size)) ∧
      ∀ y ∈ views (a + span u + 32 + b.size) v, y ∈ rest := by
    by_cases hs : need + 48 ≤ b.size
    · refine ⟨⟨a + span u, need, false, a + span u + 32 + need⟩,
        ⟨a + span u + 32 + need, b.size - need - 32, true,
          if v = [] then 0 else a + span u + 32 + need + 32 + (b.size - need - 32)⟩ ::
          views (a + span u + 32 + need + 32 + (b.size - need - 32)) v,
        by simp [carve, hs, views], rfl, rfl, Nat.le_refl _, hfit.2, fun y hy => ?_, fun y hy => ?_⟩
      · rcases List.mem_cons.mp hy with rfl | hy
        · exact .inr ⟨rfl, by dsimp only; omega, by dsimp only; omega⟩
        · rw [show a + span u + 32 + need + 32 + (b.size - need - 32) = a + span u + 32 + b.size by
            omega] at hy
          exact .inl hy
      · refine List.mem_cons_of_mem _ ?_
        rwa [show a + span u + 32 + need + 32 + (b.size - need - 32) = a + span u + 32 + b.size by
          omega]
    · exact ⟨⟨a + span u, b.size, false, if v = [] then 0 else a + span u + 32 + b.size⟩,
        views (a + span u + 32 + b.size) v, by simp [carve, hs, views], rfl, rfl, hfit.2,
        Nat.le_refl _, fun y hy => .inl hy, fun y hy => hy⟩
  rw [hold, hnew, hx]
  refine ⟨⟨⟨a + span u, b.size, b.free, if v = [] then 0 else a + span u + 32 + b.size⟩, by
      simp [views], rfl, hfit.1, hfit.2, fun y hy => ?_⟩,
    ⟨x, by simp, by rw [At, haddr], hused, hsize⟩, fun c hc hfree y hy hat => ?_,
    fun c hc hnot => ?_⟩
  · rcases List.mem_append.mp hy with hy | hy
    · exact .inl (List.mem_append_left _ hy)
    · rcases List.mem_cons.mp hy with rfl | hy
      · exact .inr (.inl (by rw [At, haddr]))
      · rcases hrest y hy with hy | hy
        · exact .inl (List.mem_append_right _ (by simp [views, hy]))
        · exact .inr (.inr hy)
  · -- the block at `p` in the new list is `x`
    have hyx : y = x := by
      simp only [At, sizeofBlock] at hat
      rcases List.mem_append.mp hy with hy | hy
      · have := mem_links hy
        omega
      · rcases List.mem_cons.mp hy with rfl | hy
        · rfl
        · rcases hrest y hy with hy | hy
          · have := le_mem_views hy
            omega
          · omega
    subst hyx
    rcases List.mem_append.mp hc with hc | hc
    · have := mem_links hc
      right
      simp only [sizeofBlock]
      omega
    · simp only [views, List.mem_cons] at hc
      rcases hc with rfl | hc
      · rw [hfit.1] at hfree
        cases hfree
      · have := le_mem_views hc
        left
        simp only [sizeofBlock]
        omega
  · rcases List.mem_append.mp hc with hc | hc
    · exact List.mem_append_left _ hc
    · simp only [views, List.mem_cons] at hc
      rcases hc with rfl | hc
      · exact absurd rfl hnot
      · exact List.mem_append_right _ (List.mem_cons_of_mem _ (hsub c hc))

/-- What a request of `size` bytes comes to in the state `c` with the blocks `bs`. -/
structure Served (c : Client) (bs : List Block) (size : Nat) (c' : Client) (p : Nat)
    (bs' : List Block) : Prop where
  step : c.step (.kmalloc size) = some c'
  returned : c'.returned = p :: c.returned
  listed : Listed c'.heap.mem c'.heap.heapHead bs'
  null_iff : p = 0 ↔ ∀ b ∈ bs, b.free = true → b.size < (size + 15) / 16 * 16
  refused : p = 0 → bs' = bs
  aligned : p % 16 = 0
  takes : p ≠ 0 → Takes bs bs' p ((size + 15) / 16 * 16)

theorem Client.Sim.serve {c : Client} {L : Layout} (h : c.Sim L) {size : Nat}
    (hsize : size + 15 < 2^64) :
    ∃ c' p bs', Served c (views heapStart L.blocks) size c' p bs' := by
  obtain ⟨c', hstep, hsim, hret, -⟩ := h.kmalloc size
  have halign : align size = (size + 15) / 16 * 16 := by
    rw [align, wrap_of_lt hsize]
  have hfits : ∀ {b : Blk}, fits (align size) b = false ↔
      (b.free = true → b.size < (size + 15) / 16 * 16) := by
    intro b
    rw [halign]
    cases hb : b.free <;> simp [fits, hb]
  have hblocks : (∀ b ∈ L.blocks, fits (align size) b = false) ↔
      ∀ x ∈ views heapStart L.blocks, x.free = true → x.size < (size + 15) / 16 * 16 := by
    constructor
    · intro hall x hx
      obtain ⟨u, b, v, he, -, hs, hf⟩ := mem_views hx
      rw [hs, hf]
      exact hfits.mp (hall b (by simp [he]))
    · intro hall b hb
      obtain ⟨u, v, he⟩ := List.append_of_mem hb
      refine hfits.mpr ?_
      have := hall ⟨heapStart + span u, b.size, b.free,
        if v = [] then 0 else heapStart + span u + 32 + b.size⟩ (by
          rw [he, views_append _ _ (by simp)]
          simp [views])
      exact this
  cases hm : L.malloc (align size) with
  | none =>
    simp only [Layout.step, Layout.result, hm, Option.map_none, Option.getD_none] at hsim hret
    refine ⟨c', 0, _, hstep, hret, hsim.listed, ?_, fun _ => rfl, rfl, fun hne => absurd rfl hne⟩
    exact ⟨fun _ => hblocks.mp (Layout.malloc_none.mp hm), fun _ => rfl⟩
  | some q =>
    obtain ⟨p, L'⟩ := q
    simp only [Layout.step, Layout.result, hm, Option.map_some, Option.getD_some] at hsim hret
    obtain ⟨u, b, v, he, hb, rfl, rfl⟩ := Layout.malloc_some hm
    have hne : heapStart + (span u + 32) ≠ 0 := by simp only [heapStart]; omega
    have hspan : span u % 16 = 0 :=
      span_aligned fun d hd => h.ok.aligned d (by simp [he, hd])
    refine ⟨c', heapStart + (span u + 32), _, hstep, hret, hsim.listed, ?_,
      fun hz => absurd hz hne, ?_, fun _ => ?_⟩
    · refine ⟨fun hz => absurd hz hne, fun hall => ?_⟩
      have hnone := Layout.malloc_none.mpr (hblocks.mpr hall)
      rw [hm] at hnone
      cases hnone
    · simp only [heapStart]
      omega
    · rw [he, ← halign, ← Nat.add_assoc]
      exact takes_of_carve heapStart hb

/-- All the live pointers are freed, in the order of `ps`. -/
theorem Client.Sim.free_all {c : Client} {L : Layout} (h : c.Sim L) {ps : List Nat}
    (hnd : ps.Nodup) (hps : ∀ p, p ∈ ps ↔ p ∈ c.live.map Prod.fst) :
    ∃ c' L', c.exec (ps.map .kfree) = some c' ∧ c'.Sim L' ∧ c'.live = [] := by
  induction ps generalizing c L with
  | nil =>
    refine ⟨c, L, rfl, h, ?_⟩
    have hnil : c.live.map Prod.fst = [] :=
      List.eq_nil_iff_forall_not_mem.mpr fun p hp => List.not_mem_nil ((hps p).mpr hp)
    simpa using hnil
  | cons p ps ih =>
    obtain ⟨hp, hnd'⟩ := List.nodup_cons.mp hnd
    obtain ⟨c₁, hstep, hsim, -, -⟩ := h.kfree ((hps p).mp List.mem_cons_self)
    have hlive : ∀ q, q ∈ ps ↔ q ∈ c₁.live.map Prod.fst := by
      intro q
      have hpay := (h.live p).mp ((hps p).mp List.mem_cons_self)
      obtain ⟨hle, hoff⟩ := (payloads_shift heapStart L.blocks p).mp hpay
      rw [hsim.live]
      simp only [Layout.step, if_pos hpay]
      rw [payloads_shift heapStart, Layout.mem_payloads_release h.ok hoff]
      have hq := hps q
      rw [h.live, payloads_shift heapStart, List.mem_cons] at hq
      constructor
      · intro hmem
        obtain ⟨h1, h2⟩ := hq.mp (.inr hmem)
        refine ⟨h1, h2, fun heq => hp ?_⟩
        have hpq : p = q := by omega
        rw [hpq]
        exact hmem
      · rintro ⟨h1, h2, h3⟩
        rcases hq.mpr ⟨h1, h2⟩ with rfl | hmem
        · exact absurd rfl h3
        · exact hmem
    obtain ⟨c', L', hexec, hsim', hnil⟩ := ih hsim hnd' hlive
    refine ⟨c', L', ?_, hsim', hnil⟩
    rw [List.map_cons, Client.exec, hstep]
    exact hexec

theorem Client.Sim.listed_of_no_live {c : Client} {L : Layout} (h : c.Sim L) (hnil : c.live = []) :
    Listed c.heap.mem c.heap.heapHead [⟨heapStart, heapSize - sizeofBlock, true, 0⟩] := by
  have hfree : ∀ b ∈ L.blocks, b.free = true := by
    intro b hb
    obtain ⟨u, v, he⟩ := List.append_of_mem hb
    by_contra hused
    have hmem : heapStart + span u + 32 ∈ payloads heapStart L.blocks :=
      mem_payloads.mpr ⟨u, b, v, he, by simpa using hused, rfl⟩
    rw [← h.live, hnil] at hmem
    exact List.not_mem_nil hmem
  have hlisted := h.listed
  rw [h.ok.all_free hfree] at hlisted
  simpa [views] using hlisted

/-- After any run: a request is refused exactly when no free block is large enough, a block that
is handed out is one of its own, and freeing all that is live restores the first free block. -/
theorem kmalloc_complete (m : Mem) (es : List Event) :
    ∃ c₀, Client.boot m = some c₀ ∧
      (c₀.Follows Client.Permits es → ∃ c bs, c₀.exec es = some c ∧
        Listed c.heap.mem c.heap.heapHead bs ∧
        (∀ p, p ∈ c.live.map Prod.fst ↔ ∃ b ∈ bs, b.free = false ∧ p = b.addr + sizeofBlock) ∧
        (∀ size, size + 15 < 2^64 → ∃ c' p bs', Served c bs size c' p bs') ∧
        ∀ ps : List Nat, ps.Nodup → (∀ p, p ∈ ps ↔ p ∈ c.live.map Prod.fst) →
          ∃ c', c.exec (ps.map .kfree) = some c' ∧ c'.live = [] ∧
            Listed c'.heap.mem c'.heap.heapHead [⟨heapStart, heapSize - sizeofBlock, true, 0⟩]) := by
  obtain ⟨c₀, hb, hs, -, hc⟩ := Client.boot_sim m
  refine ⟨c₀, hb, fun hf => ?_⟩
  obtain ⟨c, he, hsim, -, -⟩ := Client.Sim.exec (fun h hp => h.step hp) hs hf hc
  refine ⟨c, _, he, hsim.listed, hsim.live_iff, fun size hsize => hsim.serve hsize,
    fun ps hnd hps => ?_⟩
  obtain ⟨c', L', hexec, hsim', hnil⟩ := hsim.free_all hnd hps
  exact ⟨c', hexec, hnil, hsim'.listed_of_no_live hnil⟩

/-- Two blocks, one of them written to, and freed again from the first on. -/
theorem kmalloc_complete_two_blocks :
    ∃ c₀ c, Client.boot (fun _ => 0) = some c₀ ∧
      c₀.exec [.kmalloc 40, .kmalloc 16, .write (heapStart + 32) 7] = some c ∧
      (∃ c' p bs bs', Served c bs 100 c' p bs') ∧
      ∃ c', c.exec [.kfree (heapStart + 32), .kfree (heapStart + 112)] = some c' ∧ c'.live = [] ∧
        Listed c'.heap.mem c'.heap.heapHead [⟨heapStart, heapSize - sizeofBlock, true, 0⟩] := by
  obtain ⟨c₀, hb, hrun⟩ := kmalloc_complete (fun _ => 0)
    [.kmalloc 40, .kmalloc 16, .write (heapStart + 32) 7]
  have hok : ∀ c ∈ Client.boot (fun _ => 0),
      c.Follows Client.Permits [.kmalloc 40, .kmalloc 16, .write (heapStart + 32) 7] := by
    decide +kernel
  have hlive : ∀ c ∈ (Client.boot (fun _ => 0)).bind fun c =>
      c.exec [.kmalloc 40, .kmalloc 16, .write (heapStart + 32) 7],
      c.live.map Prod.fst = [heapStart + 112, heapStart + 32] := by
    decide +kernel
  obtain ⟨c, bs, he, -, -, hserve, hfree⟩ := hrun (hok c₀ hb)
  have hl := hlive c (by rw [hb]; exact he)
  refine ⟨c₀, c, hb, he, ?_, ?_⟩
  · obtain ⟨c', p, bs', hs⟩ := hserve 100 (by decide)
    exact ⟨c', p, bs, bs', hs⟩
  · refine hfree [heapStart + 32, heapStart + 112] (by decide) fun p => ?_
    rw [hl]
    simp only [List.mem_cons, List.not_mem_nil, or_false]
    exact or_comm

end LosTacOS.Heap
