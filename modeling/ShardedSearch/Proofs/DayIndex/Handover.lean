import Mathlib.Algebra.Group.Nat.Defs
import ShardedSearch.Proofs.DayIndex.Run

/-! # Results handed over by workers

Workers send numbered results through a channel, each when it is done with it, and a consumer
calls for them one after the other. However the steps of both sides follow each other, the calls
return the results in the order of their numbers, each once, and nothing only when all are
out; and every call comes to its return.
-/

namespace ShardedSearch

namespace DayIndex

variable {α : Type}

namespace Sequencer

variable {s s' : Sequencer α} {es : List (Nat × α)} {a : α}

/-- What calls for a result return; a call without a result leaves everything as it is. -/
def calls : Nat → Sequencer α → List (Option α)
  | 0, _ => []
  | n + 1, s =>
    match s.next? with
    | some (a, s) => some a :: calls n s
    | none => none :: calls n s

theorem calls_of_holds {n : Nat} (h : s.Holds es) :
    s.calls n = (List.range n).map fun i => (es.map Prod.snd)[i]? := by
  induction n generalizing s es with
  | zero => rfl
  | succ n ih =>
    rw [calls, next?, List.range_succ_eq_map, List.map_cons, List.map_map]
    cases es with
    | nil => rw [h.nextOf?_eq_none, ih h]; rfl
    | cons e es =>
      obtain ⟨s', hs', hrest⟩ := h.nextOf?
      rw [hs']
      exact congrArg _ (ih hrest)

/-- A number is passed over only once nothing more arrives. -/
theorem due_eq_or_arrivals_eq_nil (h : s.next? = some (a, s')) :
    s'.due = s.due + 1 ∨ s'.arrivals = [] := by
  obtain ⟨due, waiting, arrivals⟩ := s
  rw [next?] at h
  induction arrivals generalizing waiting with
  | nil =>
    rw [nextOf?, Option.or_eq_some_iff] at h
    rcases h with hdue | ⟨-, hlowest⟩
    · obtain ⟨b, -, hb⟩ := Option.map_eq_some_iff.mp hdue
      obtain ⟨-, rfl⟩ := Prod.mk.inj hb
      exact .inl rfl
    · obtain ⟨e, -, he⟩ := Option.map_eq_some_iff.mp hlowest
      obtain ⟨-, rfl⟩ := Prod.mk.inj he
      exact .inr rfl
  | cons x arrivals ih =>
    rw [nextOf?] at h
    cases hdue : dueOf? due waiting (x :: arrivals) with
    | none =>
      rw [hdue] at h
      exact ih _ h
    | some r =>
      rw [hdue] at h
      obtain rfl := Option.some.inj h
      obtain ⟨b, -, hb⟩ := Option.map_eq_some_iff.mp hdue
      obtain ⟨-, rfl⟩ := Prod.mk.inj hb
      exact .inl rfl

end Sequencer

/-- Workers with results to send, a channel, and a consumer that calls for results. A call that
finds nothing in the channel asks again and changes nothing. -/
structure Handover (α : Type) where
  /-- Results that are not sent. -/
  unsent : List (Nat × α)
  /-- Whether some worker is left. -/
  connected : Bool
  /-- Results that are sent and not received, the oldest first. -/
  channel : List (Nat × α)
  /-- The number that is due next, counted in words of 64 bits. -/
  due : Nat
  /-- Results that are received and not returned. -/
  waiting : SortedMap Nat α
  /-- What the calls returned. -/
  returned : List (Option (Nat × α))

namespace Handover

variable {capacity n : Nat} {outcomes : SortedMap Nat α} {arrivals : List (Nat × α)}
variable {h h' : Handover α}

def start (outcomes : SortedMap Nat α) : Handover α :=
  ⟨outcomes.toList, true, [], 0, .empty, []⟩

/-- Steps of workers and consumer, over a channel with room for a number of results. The
consumer goes on to a later number, or to nothing, only without workers and with an empty
channel. -/
inductive Step (capacity : Nat) (h : Handover α) : Handover α → Prop
  | send (before : List (Nat × α)) (e : Nat × α) (after : List (Nat × α))
      (hunsent : h.unsent = before ++ e :: after) (hroom : h.channel.length < capacity) :
    Step capacity h { h with unsent := before ++ after, channel := h.channel ++ [e] }
  | leave (hunsent : h.unsent = []) (hconnected : h.connected = true) :
    Step capacity h { h with connected := false }
  | receive {e : Nat × α} {rest : List (Nat × α)} (hdue : h.waiting.get? h.due = none)
      (hchannel : h.channel = e :: rest) :
    Step capacity h { h with channel := rest, waiting := h.waiting.insert e.1 e.2 }
  | release {a : α} (hdue : h.waiting.get? h.due = some a) :
    Step capacity h
      { h with
        due := (h.due + 1) % 2 ^ 64
        waiting := h.waiting.erase h.due
        returned := h.returned ++ [some (h.due, a)] }
  | skip {e : Nat × α} (hdue : h.waiting.get? h.due = none) (hchannel : h.channel = [])
      (hconnected : h.connected = false) (hfirst : h.waiting.toList.head? = some e) :
    Step capacity h
      { h with
        due := (e.1 + 1) % 2 ^ 64
        waiting := h.waiting.erase e.1
        returned := h.returned ++ [some e] }
  | finish (hwaiting : h.waiting.toList = []) (hchannel : h.channel = [])
      (hconnected : h.connected = false) :
    Step capacity h { h with returned := h.returned ++ [none] }

inductive Run (capacity : Nat) (outcomes : SortedMap Nat α) : Nat → Handover α → Prop
  | start : Run capacity outcomes 0 (start outcomes)
  | step {n : Nat} {h h' : Handover α} (hrun : Run capacity outcomes n h)
      (hstep : Step capacity h h') : Run capacity outcomes (n + 1) h'

def sequencer (h : Handover α) : Sequencer α := ⟨h.due, h.waiting, h.channel ++ h.unsent⟩

/-- What holds between steps: the first results are returned, the others are under way, and
while workers are left no number is passed over. -/
structure Keeps (outcomes : SortedMap Nat α) (h : Handover α) : Prop where
  returned_eq : h.returned = (List.range h.returned.length).map (outcomes.toList[·]?)
  holds : h.sequencer.Holds (outcomes.toList.drop h.returned.length)
  unsent_eq : h.connected = false → h.unsent = []
  due_eq : h.connected = true → h.due = h.returned.length % 2 ^ 64
  numbers_eq : h.connected = true →
    h.returned.map (Option.map Prod.fst) = (List.range h.returned.length).map some

theorem keeps_start (outcomes : SortedMap Nat α) : (start outcomes).Keeps outcomes where
  returned_eq := rfl
  holds := Sequencer.holds_ofArrivals outcomes.ascending (.refl _)
  unsent_eq h := nomatch h
  due_eq _ := rfl
  numbers_eq _ := rfl

theorem Keeps.returned_append {r : Option (Nat × α)} (hk : h.Keeps outcomes)
    (hr : outcomes.toList[h.returned.length]? = r) : h.returned ++ [r] =
      (List.range (h.returned ++ [r]).length).map (outcomes.toList[·]?) := by
  rw [List.length_append, List.length_singleton, List.range_succ, List.map_append,
    ← hk.returned_eq, List.map_singleton, hr]

theorem Keeps.toList_waiting (hk : h.Keeps outcomes) (hchannel : h.channel = [])
    (hconnected : h.connected = false) :
    h.waiting.toList = outcomes.toList.drop h.returned.length := by
  have hholds := hk.holds
  rw [sequencer, hchannel, hk.unsent_eq hconnected] at hholds
  exact hholds.toList_eq

theorem add_le_of_getElem? {k : Nat} {e : Nat × α} {es : List (Nat × α)}
    (hasc : es.Pairwise (·.1 < ·.1)) (hk : ∀ e ∈ es, k ≤ e.1) (h : es[n]? = some e) :
    k + n ≤ e.1 := by
  induction es generalizing k n with
  | nil => cases h
  | cons x es ih =>
    obtain ⟨hlt, hasc⟩ := List.pairwise_cons.mp hasc
    cases n with
    | zero => exact hk e (List.mem_of_getElem? h)
    | succ n =>
      have hnext : ∀ e ∈ es, k + 1 ≤ e.1 := fun e he =>
        Nat.lt_of_le_of_lt (hk x List.mem_cons_self) (hlt e he)
      have := ih hasc hnext h
      omega

theorem Keeps.of_head {e : Nat × α} {es : List (Nat × α)} (hk : h.Keeps outcomes)
    (hes : outcomes.toList.drop h.returned.length = e :: es)
    (hreturned : h'.returned = h.returned ++ [some e]) (hholds : h'.sequencer.Holds es)
    (hunsent : h'.unsent = h.unsent) (hconnected : h'.connected = h.connected)
    (hdue : h.connected = true → e.1 = h.due ∧ h'.due = (h.due + 1) % 2 ^ 64) :
    h'.Keeps outcomes := by
  have hget : outcomes.toList[h.returned.length]? = some e := by
    rw [← List.head?_drop, hes]
    rfl
  have hdrop : outcomes.toList.drop (h.returned.length + 1) = es := by
    rw [← List.tail_drop, hes]
    rfl
  have hlength : h'.returned.length = h.returned.length + 1 := by
    rw [hreturned, List.length_append]
    rfl
  -- No number is below its place, so a counter that had started over would find no result.
  have hnumber : h.connected = true → e.1 = h.returned.length := fun hleft => by
    have hle := add_le_of_getElem? outcomes.ascending (fun _ _ => Nat.zero_le _) hget
    have hmod := Nat.mod_le h.returned.length (2 ^ 64)
    rw [← hk.due_eq hleft, ← (hdue hleft).1] at hmod
    omega
  refine ⟨hreturned ▸ hk.returned_append hget, ?_, ?_, ?_, ?_⟩
  · rwa [hlength, hdrop]
  · rw [hunsent, hconnected]
    exact hk.unsent_eq
  · rw [hconnected, hlength]
    intro hleft
    rw [(hdue hleft).2, hk.due_eq hleft, Nat.mod_add_mod]
  · rw [hconnected, hlength]
    intro hleft
    rw [hreturned, List.map_append, hk.numbers_eq hleft, List.range_succ, List.map_append,
      ← hnumber hleft]
    rfl

theorem keeps_step (hk : h.Keeps outcomes) (hstep : Step capacity h h') : h'.Keeps outcomes := by
  cases hstep with
  | send before e after hunsent hroom =>
    have hperm : ((h.channel ++ [e]) ++ (before ++ after)).Perm (h.channel ++ h.unsent) := by
      rw [hunsent, List.append_assoc, List.singleton_append]
      exact List.perm_middle.symm.append_left _
    have hne : h.connected ≠ false := fun hgone => by
      have := hk.unsent_eq hgone
      simp [hunsent] at this
    exact { hk with
      holds := hk.holds.of_perm hperm
      unsent_eq := fun hgone => absurd hgone hne }
  | leave hunsent hconnected =>
    exact { hk with
      unsent_eq := fun _ => hunsent
      due_eq := fun h => nomatch h
      numbers_eq := fun h => nomatch h }
  | @receive e rest hdue hchannel =>
    have hholds := hk.holds
    rw [sequencer, hchannel] at hholds
    exact { hk with holds := hholds.insert }
  | @release a hdue =>
    cases hes : outcomes.toList.drop h.returned.length with
    | nil =>
      have hholds := hk.holds
      rw [hes] at hholds
      have hmem := hholds.perm.mem_iff.mp
        (List.mem_append_left _ (SortedMap.get?_eq_some_iff.mp hdue))
      cases hmem
    | cons e es =>
      have hholds := hk.holds
      rw [hes] at hholds
      have he := hholds.eq_of_get? hdue
      exact hk.of_head hes (he ▸ rfl) ((hholds.of_get? hdue).of_due_le (Nat.mod_le ..)) rfl rfl
        fun _ => ⟨he ▸ rfl, rfl⟩
  | @skip e hdue hchannel hconnected hfirst =>
    obtain ⟨es, hes⟩ := List.head?_eq_some_iff.mp hfirst
    rw [hk.toList_waiting hchannel hconnected] at hes
    have hholds := hk.holds
    rw [hes, sequencer, hchannel, hk.unsent_eq hconnected] at hholds
    refine hk.of_head hes rfl ?_ rfl rfl fun hleft => absurd (hleft.symm.trans hconnected) nofun
    rw [sequencer, hchannel, hk.unsent_eq hconnected]
    exact hholds.of_head?.of_due_le (Nat.mod_le ..)
  | finish hwaiting hchannel hconnected =>
    have hnil : outcomes.toList.drop h.returned.length = [] :=
      (hk.toList_waiting hchannel hconnected).symm.trans hwaiting
    have hget : outcomes.toList[h.returned.length]? = none := by
      rw [← List.head?_drop, hnil]
      rfl
    have hdrop : outcomes.toList.drop (h.returned ++ [none]).length = [] := by
      rw [List.length_append, List.length_singleton, ← List.tail_drop, hnil]
      rfl
    refine ⟨hk.returned_append hget, ?_, hk.unsent_eq, ?_, ?_⟩
    · rw [hdrop, ← hnil]
      exact hk.holds
    · exact fun hleft => absurd (hleft.symm.trans hconnected) nofun
    · exact fun hleft => absurd (hleft.symm.trans hconnected) nofun

theorem keeps_run (hrun : Run capacity outcomes n h) : h.Keeps outcomes := by
  induction hrun with
  | start => exact keeps_start outcomes
  | step hrun hstep ih => exact keeps_step ih hstep

/-- Steps that are left before a call has to return. -/
def work (h : Handover α) : Nat :=
  2 * h.unsent.length + h.channel.length + h.connected.toNat

theorem work_step (hstep : Step capacity h h') :
    h'.work + 1 + h.returned.length ≤ h.work + h'.returned.length := by
  cases hstep with
  | send before e after hunsent hroom =>
    simp only [work, hunsent, List.length_append, List.length_cons, List.length_nil]
    omega
  | leave hunsent hconnected =>
    simp only [work, hconnected, Bool.toNat_true, Bool.toNat_false]
    omega
  | receive hdue hchannel =>
    simp only [work, hchannel, List.length_cons]
    omega
  | release | skip | finish =>
    simp only [work, List.length_append, List.length_singleton]
    omega

theorem work_run (hrun : Run capacity outcomes n h) :
    h.work + n ≤ h.returned.length + (2 * outcomes.size + 1) := by
  induction hrun with
  | start => exact Nat.le_of_eq (by simp [start, work, SortedMap.size])
  | step hrun hstep ih =>
    have := work_step hstep
    omega

/-- Neither side ever waits for the other in vain. -/
theorem exists_step (hcapacity : 0 < capacity) (h : Handover α) : ∃ h', Step capacity h h' := by
  cases hdue : h.waiting.get? h.due with
  | some a => exact ⟨_, .release hdue⟩
  | none =>
    cases hchannel : h.channel with
    | cons e rest => exact ⟨_, .receive hdue hchannel⟩
    | nil =>
      cases hunsent : h.unsent with
      | cons e after =>
        exact ⟨_, .send [] e after hunsent (by rwa [hchannel])⟩
      | nil =>
        cases hconnected : h.connected with
        | true => exact ⟨_, .leave hunsent hconnected⟩
        | false =>
          cases hwaiting : h.waiting.toList with
          | nil => exact ⟨_, .finish hwaiting hchannel hconnected⟩
          | cons e es =>
            exact ⟨_, .skip hdue hchannel hconnected (congrArg List.head? hwaiting)⟩

/-- Whatever the order of arrival, and whatever the order in which workers and consumer take
their steps, the calls return the results in the order of their numbers, each once, and nothing
from then on. No number is passed over while workers are left, and of the steps of a run all
but two for each result and one more are returns. -/
theorem returns_in_order (hcapacity : 0 < capacity) (harrivals : arrivals.Perm outcomes.toList)
    (hrun : Run capacity outcomes n h) :
    (∀ m, (Sequencer.ofArrivals arrivals).calls m = (List.range m).map (outcomes.values[·]?)) ∧
    (∀ (s s' : Sequencer α) (a : α), s.next? = some (a, s') →
      s'.due = s.due + 1 ∨ s'.arrivals = []) ∧
    h.returned = (List.range h.returned.length).map (outcomes.toList[·]?) ∧
    (h.connected = true →
      h.returned.map (Option.map Prod.fst) = (List.range h.returned.length).map some) ∧
    (∃ h', Step capacity h h') ∧ n ≤ h.returned.length + (2 * outcomes.size + 1) := by
  have hk := keeps_run hrun
  have hholds := Sequencer.holds_ofArrivals outcomes.ascending harrivals
  exact ⟨fun _ => Sequencer.calls_of_holds hholds,
    fun _ _ _ => Sequencer.due_eq_or_arrivals_eq_nil, hk.returned_eq, hk.numbers_eq,
    exists_step hcapacity h, Nat.le_of_add_left_le (work_run hrun)⟩

def gapped : SortedMap Nat String := ⟨[(0, "a"), (2, "b")], by decide⟩

theorem run_gapped : Run 1 gapped 8
    ⟨[], false, [], 3, .empty, [some (0, "a"), some (2, "b"), none]⟩ := by
  have hsend : Run 1 gapped 1 _ := .step .start (.send [(0, "a")] (2, "b") [] rfl (by decide))
  have hreceive : Run 1 gapped 2 _ := .step hsend (.receive rfl rfl)
  have hothers : Run 1 gapped 4 _ :=
    .step (.step hreceive (.send [] (0, "a") [] rfl (by decide))) (.receive rfl rfl)
  have hrelease : Run 1 gapped 5 _ := .step hothers (.release rfl)
  have hskip : Run 1 gapped 7 _ :=
    .step (.step hrelease (.leave rfl rfl)) (.skip rfl rfl rfl rfl)
  exact .step hskip (.finish rfl rfl rfl)

theorem returns_in_order_gapped :
    (Sequencer.ofArrivals [(2, "b"), (0, "a")]).calls 3 = [some "a", some "b", none] ∧
      ∃ h, Run 1 gapped 8 h ∧
        h.returned = (List.range h.returned.length).map (gapped.toList[·]?) ∧
        (∃ h', Step 1 h h') ∧ 8 ≤ h.returned.length + (2 * gapped.size + 1) := by
  have harrivals : [(2, "b"), (0, "a")].Perm gapped.toList := by decide
  obtain ⟨hcalls, -, hreturned, -, hstep, hlength⟩ :=
    returns_in_order Nat.one_pos harrivals run_gapped
  exact ⟨hcalls 3, _, run_gapped, hreturned, hstep, hlength⟩

end Handover

end DayIndex

namespace DayRun

open DayIndex

variable {r : DayRun} {outcomes : SortedMap Nat Outcome} {arrivals : List (Nat × Outcome)}

/-- The plans of a run do not show in which order its scans finish. -/
theorem drain_ofArrivals (hopen : r.closed = false) (hr : r.outcomes = .ofArrivals arrivals)
    (harrivals : arrivals.Perm outcomes.toList) :
    (PlanStream.pruned r).drain.1 = r.plansOver outcomes.toList := by
  have hholds := Sequencer.holds_ofArrivals outcomes.ascending harrivals
  rw [← hr] at hholds
  exact drain_of_gives (.running hopen hholds)

end DayRun

end ShardedSearch
