import LosTacOS.Heap.Complete

/-! Requests as the kernel makes them, with sizes up to 2^64: who asks for a block, and which bytes
of it are stored afterwards. -/
namespace LosTacOS.Heap
open ByteMemory

/-- A piece of code that asks for a block. `growFile` is `sys_write` beyond the end of a file. -/
inductive Caller where
  | plain (n : Nat)
  | writeContent (len : Nat)
  | appendContent (oldLen len : Nat)
  | growFile (size offset len : Nat)

namespace Caller

def request : Caller → Nat
  | plain n => n
  | writeContent len => wrap (len + 1)
  | appendContent oldLen len => wrap (wrap (oldLen + len) + 1)
  | growFile _ offset len => wrap (wrap (offset + len) + 1)

def stores : Caller → List (Nat × Nat)
  | plain n => [(0, n)]
  | writeContent len => [(0, len), (len, 1)]
  | appendContent oldLen len => [(0, oldLen), (oldLen, len), (wrap (oldLen + len), 1)]
  | growFile size offset len => [(0, size), (offset, len), (wrap (offset + len), 1)]

def need : Caller → Nat
  | plain n => n
  | writeContent len => len + 1
  | appendContent oldLen len => oldLen + len + 1
  | growFile _ offset len => offset + len + 1

/-- Numbers are of type `size_t`, and a file is grown only if it is too small. -/
def Valid : Caller → Prop
  | plain n => n < 2^64
  | writeContent len => len < 2^64
  | appendContent oldLen len => oldLen < 2^64 ∧ len < 2^64
  | growFile size offset len => offset < 2^64 ∧ len < 2^64 ∧ size < wrap (offset + len)

end Caller

def payload (m : Mem) (p : Nat) : Nat := loadLE m (p - sizeofBlock) 8

def Client.Inside (c : Client) (k : Caller) : Prop :=
  ∀ c' p, c.step (.kmalloc k.request) = some c' → c'.returned = p :: c.returned → p ≠ 0 →
    ∀ s ∈ k.stores, 0 < s.2 → s.1 + s.2 ≤ payload c'.heap.mem p

variable {c : Client} {L : Layout} {k : Caller}

theorem Caller.request_eq (hv : k.Valid) (h : k.need + 15 < 2^64) : k.request = k.need := by
  cases k with
  | plain n => rfl
  | writeContent len => exact wrap_of_lt (by simp only [Caller.need] at h; omega)
  | appendContent oldLen len =>
    simp only [Caller.need] at h
    have hsum : wrap (oldLen + len) = oldLen + len := wrap_of_lt (by omega)
    rw [Caller.request, hsum]
    exact wrap_of_lt (by omega)
  | growFile size offset len =>
    simp only [Caller.need] at h
    have hsum : wrap (offset + len) = offset + len := wrap_of_lt (by omega)
    rw [Caller.request, hsum]
    exact wrap_of_lt (by omega)

/-- Without wrapping no store goes beyond what is needed. -/
theorem Caller.stores_le (hv : k.Valid) (h : k.need + 15 < 2^64) :
    ∀ s ∈ k.stores, s.1 + s.2 ≤ k.need := by
  cases k with
  | plain n => simp [Caller.stores, Caller.need]
  | writeContent len => simp [Caller.stores, Caller.need]
  | appendContent oldLen len =>
    simp only [Caller.need] at h
    simp only [Caller.stores, Caller.need, List.mem_cons, List.not_mem_nil, or_false,
      forall_eq_or_imp, forall_eq]
    rw [wrap_of_lt (by omega)]
    omega
  | growFile size offset len =>
    simp only [Caller.need] at h
    have hsize := hv.2.2
    rw [wrap_of_lt (by omega)] at hsize
    simp only [Caller.stores, Caller.need, List.mem_cons, List.not_mem_nil, or_false,
      forall_eq_or_imp, forall_eq]
    rw [wrap_of_lt (by omega)]
    omega

theorem Caller.stores_far (hv : k.Valid) (h : ¬ k.need + 15 < 2^64) :
    ∃ s ∈ k.stores, 0 < s.2 ∧ 2^64 - 16 ≤ s.1 + s.2 := by
  cases k with
  | plain n =>
    simp only [Caller.need] at h
    exact ⟨(0, n), by simp [Caller.stores], by omega, by omega⟩
  | writeContent len =>
    simp only [Caller.need] at h
    exact ⟨(len, 1), by simp [Caller.stores], by omega, by omega⟩
  | appendContent oldLen len =>
    simp only [Caller.need] at h
    have hold := hv.1
    by_cases hlt : oldLen + len < 2^64
    · refine ⟨(wrap (oldLen + len), 1), by simp [Caller.stores], by omega, ?_⟩
      rw [wrap_of_lt hlt]
      omega
    · exact ⟨(oldLen, len), by simp [Caller.stores], by omega, by omega⟩
  | growFile size offset len =>
    simp only [Caller.need] at h
    have hoff := hv.1
    by_cases hlt : offset + len < 2^64
    · refine ⟨(wrap (offset + len), 1), by simp [Caller.stores], by omega, ?_⟩
      rw [wrap_of_lt hlt]
      omega
    · exact ⟨(offset, len), by simp [Caller.stores], by omega, by omega⟩

theorem Client.Sim.payload_le (h : c.Sim L) {u v : List Blk} {b : Blk}
    (he : L.blocks = u ++ b :: v) :
    payload c.heap.mem (heapStart + (span u + 32)) = b.size ∧ b.size ≤ heapSize := by
  have hrep := h.rep.rep
  have hspan := h.ok.span_eq
  rw [he] at hrep hspan
  constructor
  · rw [payload, show heapStart + (span u + 32) - sizeofBlock = heapStart + span u by
      simp only [sizeofBlock]; omega]
    exact hrep.cell.size
  · simp only [span_append, span_cons] at hspan
    omega

theorem Client.Sim.handed (h : c.Sim L) {size p : Nat} {c' : Client}
    (hstep : c.step (.kmalloc size) = some c') (hret : c'.returned = p :: c.returned)
    (hp : p ≠ 0) : align size ≤ payload c'.heap.mem p ∧ payload c'.heap.mem p ≤ heapSize := by
  obtain ⟨c₁, hstep₁, hsim, hret₁, -⟩ := h.kmalloc size
  rw [hstep] at hstep₁
  cases hstep₁
  rw [hret] at hret₁
  cases hm : L.malloc (align size) with
  | none =>
    simp only [Layout.result, hm, Option.map_none, Option.getD_none, List.singleton_append,
      List.cons.injEq, and_true] at hret₁
    exact absurd hret₁ hp
  | some q =>
    obtain ⟨o, L'⟩ := q
    simp only [Layout.step, Layout.result, hm, Option.map_some, Option.getD_some,
      List.singleton_append, List.cons.injEq, and_true] at hsim hret₁
    obtain ⟨u, b, v, he, hb, rfl, rfl⟩ := Layout.malloc_some hm
    have hfit : b.free = true ∧ align size ≤ b.size := by simpa [fits] using hb
    subst hret₁
    by_cases hs : align size + 48 ≤ b.size
    · obtain ⟨h1, h2⟩ := hsim.payload_le (u := u) (b := ⟨align size, false⟩)
        (v := ⟨b.size - align size - 32, true⟩ :: v) (by simp [carve, hs])
      rw [h1]
      exact ⟨Nat.le_refl _, h2⟩
    · obtain ⟨h1, h2⟩ := hsim.payload_le (u := u) (b := ⟨b.size, false⟩) (v := v)
        (by simp [carve, hs])
      rw [h1]
      exact ⟨hfit.2, h2⟩

theorem le_align {size : Nat} (h : size + 15 < 2^64) : size ≤ align size := by
  rw [align, wrap_of_lt h]
  omega

/-- In every state of the heap: a caller stays inside its block exactly if the size it needs does
not come near 2^64, or if the wrapped request is refused. -/
theorem Client.Sim.inside_iff (h : c.Sim L) (hv : k.Valid) :
    c.Inside k ↔ k.need + 15 < 2^64 ∨
      ∀ b ∈ views heapStart L.blocks, b.free = true → b.size < align k.request := by
  constructor
  · intro hin
    by_contra hnot
    obtain ⟨hneed, hfree⟩ := not_or.mp hnot
    obtain ⟨s, hs, hpos, hfar⟩ := Caller.stores_far hv hneed
    obtain ⟨c', hstep, -, hret, -⟩ := h.kmalloc k.request
    cases hm : L.malloc (align k.request) with
    | none =>
      refine hfree fun x hx hxfree => ?_
      obtain ⟨u, b, v, he, -, hsz, hf⟩ := mem_views hx
      have hfits := Layout.malloc_none.mp hm b (by simp [he])
      rw [hf] at hxfree
      rw [hsz]
      simpa [fits, hxfree] using hfits
    | some q =>
      simp only [Layout.result, hm, Option.map_some, Option.getD_some,
        List.singleton_append] at hret
      have hp : heapStart + q.1 ≠ 0 := by simp only [heapStart]; omega
      have hle := hin c' _ hstep hret hp s hs hpos
      have hmax := (h.handed hstep hret hp).2
      have : heapSize < 2^64 - 16 := by decide
      omega
  · rintro hor c' p hstep hret hp s hs hpos
    rcases hor with hneed | hfull
    · have hreq := Caller.request_eq hv hneed
      have hle := Caller.stores_le hv hneed s hs
      have hpay := (h.handed hstep hret hp).1
      rw [hreq] at hpay
      have := le_align hneed
      omega
    · -- no block is large enough, so the request is refused
      obtain ⟨c₁, hstep₁, -, hret₁, -⟩ := h.kmalloc k.request
      rw [hstep] at hstep₁
      cases hstep₁
      have hnone : L.malloc (align k.request) = none := by
        refine Layout.malloc_none.mpr fun b hb => ?_
        obtain ⟨u, v, he⟩ := List.append_of_mem hb
        have := hfull ⟨heapStart + span u, b.size, b.free,
          if v = [] then 0 else heapStart + span u + 32 + b.size⟩ (by
            rw [he, views_append _ _ (by simp)]
            simp [views])
        cases hf : b.free with
        | false => simp [fits, hf]
        | true => simpa [fits, hf] using this hf
      rw [hret] at hret₁
      simp only [Layout.result, hnone, Option.map_none, Option.getD_none, List.singleton_append,
        List.cons.injEq, and_true] at hret₁
      exact absurd hret₁ hp

/-- After any run of the heap, for every caller. -/
theorem caller_inside_iff (m : Mem) (es : List Event) (k : Caller) (hv : k.Valid) :
    ∃ c₀, Client.boot m = some c₀ ∧
      (c₀.Follows Client.Permits es → ∃ c bs, c₀.exec es = some c ∧
        Listed c.heap.mem c.heap.heapHead bs ∧
        (c.Inside k ↔ k.need + 15 < 2^64 ∨
          ∀ b ∈ bs, b.free = true → b.size < align k.request)) := by
  obtain ⟨c₀, hb, hs, -, hc⟩ := Client.boot_sim m
  refine ⟨c₀, hb, fun hf => ?_⟩
  obtain ⟨c, he, hsim, -, -⟩ := Client.Sim.exec (fun h hp => h.step hp) hs hf hc
  exact ⟨c, _, he, hsim.listed, hsim.inside_iff hv⟩

theorem caller_inside_iff_ten_bytes :
    ∃ c₀ c bs, Client.boot (fun _ => 0) = some c₀ ∧ c₀.exec [.kmalloc 40] = some c ∧
      Listed c.heap.mem c.heap.heapHead bs ∧
      (c.Inside (.writeContent 10) ↔ (Caller.writeContent 10).need + 15 < 2^64 ∨
        ∀ b ∈ bs, b.free = true → b.size < align (Caller.writeContent 10).request) := by
  obtain ⟨c₀, hb, hrun⟩ := caller_inside_iff (fun _ => 0) [.kmalloc 40] (.writeContent 10)
    (show 10 < 2^64 by decide)
  have hok : ∀ c ∈ Client.boot (fun _ => 0), c.Follows Client.Permits [.kmalloc 40] := by
    decide +kernel
  obtain ⟨c, bs, he, hl, hiff⟩ := hrun (hok c₀ hb)
  exact ⟨c₀, c, bs, hb, he, hl, hiff⟩

/-- `kmalloc(2^64 - 1)` on the heap as it is after `heap::init`, and a file of 2^64 - 2 bytes. -/
theorem wrapped_request_served :
    ∃ c₀, Client.boot (fun _ => 0) = some c₀ ∧ ¬ c₀.Inside (.plain (2^64 - 1)) ∧
      ¬ c₀.Inside (.writeContent (2^64 - 2)) := by
  obtain ⟨c₀, hb, hs, -, -⟩ := Client.boot_sim fun _ => 0
  have hfirst : (⟨heapStart, heapSize - 32, true, 0⟩ : Block) ∈
      views heapStart (Layout.initial heapSize).blocks := by
    simp [Layout.initial, views]
  have h1 : (Caller.plain (2^64 - 1)).Valid := show 2^64 - 1 < 2^64 by decide
  have h2 : (Caller.writeContent (2^64 - 2)).Valid := show 2^64 - 2 < 2^64 by decide
  refine ⟨c₀, hb, fun hin => ?_, fun hin => ?_⟩
  · rcases (hs.inside_iff h1).mp hin with h | h
    · exact absurd h (by decide)
    · exact absurd (h _ hfirst rfl) (by decide)
  · rcases (hs.inside_iff h2).mp hin with h | h
    · exact absurd h (by decide)
    · exact absurd (h _ hfirst rfl) (by decide)

end LosTacOS.Heap
