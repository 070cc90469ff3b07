import LosTacOS.Heap.Runs

/-! Whether the allocator depends on what its clients store: two runs of the same calls that
differ only in the bytes written into live payloads. -/
namespace LosTacOS.Heap
open ByteMemory

def calls (es : List Event) : List Event :=
  es.filter fun
    | .write _ _ => false
    | _ => true

/-- Frees of live pointers only, and writes anywhere in `[p, p + size)` of a live
`kmalloc(size)` result. -/
def Client.Lawful (c : Client) : Event → Prop
  | .kmalloc size => size < 2^64
  | .kfree p => p ∈ c.live.map Prod.fst
  | .write a _ => ∃ q ∈ c.live, q.1 ≤ a ∧ a < q.1 + q.2

def Client.SparesFooter (c : Client) : Event → Prop
  | .write a v => c.heap.mem a = v ∨
      ∃ p ∈ c.live.map Prod.fst, p ≤ a ∧ a + 8 < p + loadLE c.heap.mem (p - sizeofBlock) 8
  | _ => True

instance (c : Client) : DecidablePred c.SparesFooter
  | .kmalloc _ => inferInstanceAs (Decidable True)
  | .kfree _ => inferInstanceAs (Decidable True)
  | .write _ _ => inferInstanceAs (Decidable (_ ∨ ∃ p ∈ _, _))

instance (c : Client) : DecidablePred c.Lawful
  | .kmalloc _ => inferInstanceAs (Decidable (_ < _))
  | .kfree _ => inferInstanceAs (Decidable (_ ∈ _))
  | .write _ _ => inferInstanceAs (Decidable (∃ q ∈ _, _))

/-- Both runs end, having returned the same pointers, with the same block list, and with every
access of `kfree` inside the heap window. -/
def Client.SameBehaviour (c₀ : Client) (es es' : List Event) : Prop :=
  ∃ c c' : Client, c₀.exec es = some c ∧ c₀.exec es' = some c' ∧
    c.returned = c'.returned ∧
    (∃ bs, Listed c.heap.mem c.heap.heapHead bs ∧ Listed c'.heap.mem c'.heap.heapHead bs) ∧
    c.Confined ∧ c'.Confined

instance (c : Client) : Decidable c.Confined :=
  inferInstanceAs (Decidable (∀ x ∈ _, _))

theorem Layout.exec_calls (L : Layout) (es : List Event) : L.exec (calls es) = L.exec es := by
  induction es generalizing L with
  | nil => rfl
  | cons e es ih =>
    cases e with
    | write a v => exact ih L
    | kmalloc size => exact ih _
    | kfree p => exact ih _

theorem Layout.results_calls (L : Layout) (es : List Event) :
    L.results (calls es) = L.results es := by
  induction es generalizing L with
  | nil => rfl
  | cons e es ih =>
    cases e with
    | write a v =>
      rw [Layout.results]
      simp only [Layout.result, List.append_nil]
      exact ih L
    | kmalloc size => exact congrArg (· ++ _) (ih _)
    | kfree p => exact congrArg (· ++ _) (ih _)

/-- A write that keeps the footer is invisible to the allocator; the other events are permitted
as they are. -/
theorem Client.Sim.step_spared {c : Client} {L : Layout} (h : c.Sim L) {e : Event}
    (he : c.Lawful e ∧ c.SparesFooter e) :
    ∃ c', c.step e = some c' ∧ c'.Sim (L.step e) ∧ c'.returned = L.result e ++ c.returned ∧
      (c.Confined → c'.Confined) := by
  cases e with
  | kmalloc size => exact h.step he.1
  | kfree p => exact h.step (show c.Permits (.kfree p) from Or.inr (Or.inr (Or.inr he.1)))
  | write a v =>
    rcases he.2 with hsame | hoff
    · refine ⟨c, ?_, h, rfl, id⟩
      simp only [Client.step, ← hsame, poke_same]
    · exact h.step (show c.Permits (.write a v) from hoff)

/-- As long as no write changes a footer, the allocator's behaviour is a function of the calls
alone. -/
theorem same_behaviour_of_spared_footers {m : Mem} {c₀ : Client} (hb : Client.boot m = some c₀)
    {es es' : List Event} (hf : c₀.Follows (fun c e => c.Lawful e ∧ c.SparesFooter e) es)
    (hf' : c₀.Follows (fun c e => c.Lawful e ∧ c.SparesFooter e) es')
    (hcalls : calls es = calls es') : c₀.SameBehaviour es es' := by
  obtain ⟨c₁, hb₁, hs, hr, hc⟩ := Client.boot_sim m
  obtain rfl : c₁ = c₀ := Option.some.inj (hb₁.symm.trans hb)
  obtain ⟨c, he, hsim, hret, hconf⟩ := Client.Sim.exec (fun h hp => h.step_spared hp) hs hf hc
  obtain ⟨c', he', hsim', hret', hconf'⟩ :=
    Client.Sim.exec (fun h hp => h.step_spared hp) hs hf' hc
  -- both runs follow the tiling's run over the same calls
  have hL : (Layout.initial heapSize).exec es = (Layout.initial heapSize).exec es' := by
    rw [← Layout.exec_calls, hcalls, Layout.exec_calls]
  have hR : (Layout.initial heapSize).results es = (Layout.initial heapSize).results es' := by
    rw [← Layout.results_calls, hcalls, Layout.results_calls]
  refine ⟨c, c', he, he', by rw [hret, hret', hR], ⟨_, hsim.listed, ?_⟩, hconf, hconf'⟩
  rw [hL]
  exact hsim'.listed

/-- Different bytes in the first payload, same behaviour. -/
theorem same_behaviour_two_payloads :
    ∃ c₀, Client.boot (fun _ => 0) = some c₀ ∧ c₀.SameBehaviour
      [.kmalloc 24, .kmalloc 16, .write (heapStart + 32) 7, .kfree (heapStart + 32)]
      [.kmalloc 24, .kmalloc 16, .write (heapStart + 33) 9, .kfree (heapStart + 32)] := by
  obtain ⟨c₀, hb, -, -, -⟩ := Client.boot_sim fun _ => 0
  have hrun : ∀ c ∈ Client.boot fun _ => 0,
      c.Follows (fun c e => c.Lawful e ∧ c.SparesFooter e) [.kmalloc 24, .kmalloc 16,
        .write (heapStart + 32) 7, .kfree (heapStart + 32)] ∧
      c.Follows (fun c e => c.Lawful e ∧ c.SparesFooter e) [.kmalloc 24, .kmalloc 16,
        .write (heapStart + 33) 9, .kfree (heapStart + 32)] := by
    decide +kernel
  obtain ⟨hf, hf'⟩ := hrun c₀ hb
  exact ⟨c₀, hb, same_behaviour_of_spared_footers hb hf hf' rfl⟩

/-- One byte of a footer is enough: with the top byte of the first block's last word set, the
backward merge of the second block reads outside the heap. -/
theorem footer_write_interferes :
    ¬ ∀ (m : Mem) (c₀ : Client) (es es' : List Event), Client.boot m = some c₀ →
      c₀.Follows Client.Lawful es → c₀.Follows Client.Lawful es' → calls es = calls es' →
      c₀.SameBehaviour es es' := by
  intro H
  obtain ⟨c₀, hb, -, -, -⟩ := Client.boot_sim fun _ => 0
  have hrun : ∀ c ∈ Client.boot fun _ => 0,
      c.Follows Client.Lawful [.kmalloc 16, .kmalloc 16, .kmalloc 16, .kfree (heapStart + 80)] ∧
      c.Follows Client.Lawful [.kmalloc 16, .kmalloc 16, .kmalloc 16,
        .write (heapStart + 47) 0x80, .kfree (heapStart + 80)] ∧
      ∀ c' ∈ c.exec [.kmalloc 16, .kmalloc 16, .kmalloc 16, .write (heapStart + 47) 0x80,
        .kfree (heapStart + 80)], ¬ c'.Confined := by
    decide +kernel
  obtain ⟨hf, hf', hout⟩ := hrun c₀ hb
  obtain ⟨c, c', -, he', -, -, -, hconf⟩ := H _ c₀ _ _ hb hf hf' rfl
  exact hout c' he' hconf

end LosTacOS.Heap
