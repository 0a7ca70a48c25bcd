import Mathlib.Algebra.Order.Group.Multiset
import Mathlib.Data.Finset.Card
import Mathlib.Data.Multiset.UnionInter
import Mathlib.Logic.Function.Basic
import Mathlib.Logic.Relation

/-!
# Requests and replies

Clients that ask under an id, and take the reply that tells it from among those of all. Tickets name the
requests one by one, where ids are used again.
-/

namespace RequestReply
open Relation

/-- What a client returned with: the ticket and the id it asked under, and the reply it took. -/
structure Receipt (ι κ β : Type) where
  client : ι
  ticket : Nat
  id : κ
  taken : Nat × β

/-- The requests that were not answered yet, the replies that were not taken yet, and what has happened. -/
structure World (ι κ α β : Type) where
  outstanding : ι → Option (Nat × κ) := fun _ => none
  asked : Multiset (Nat × α) := 0
  flying : Multiset (Nat × β) := 0
  next : Nat := 0
  answered : List (Nat × β) := []
  received : List (Receipt ι κ β) := []

variable {ι κ α β : Type} {carries : κ → α → Prop} {tells : κ → β → Prop} {w w' : World ι κ α β}

/-- A client asks under an id that is not in use; a request is dropped, or answered with a reply that tells
its id; a client takes a reply that tells its id. -/
inductive Step [DecidableEq ι] (carries : κ → α → Prop) (tells : κ → β → Prop) (w : World ι κ α β) :
    World ι κ α β → Prop
  | ask (i : ι) (id : κ) (a : α) : w.outstanding i = none → (∀ j t, w.outstanding j ≠ some (t, id)) →
    carries id a →
    Step carries tells w
      { w with outstanding := Function.update w.outstanding i (some (w.next, id)),
               asked := (w.next, a) ::ₘ w.asked, next := w.next + 1 }
  | drop (x : Nat × α) (rest : Multiset (Nat × α)) : w.asked = x ::ₘ rest →
    Step carries tells w { w with asked := rest }
  | answer (t : Nat) (a : α) (b : β) (rest : Multiset (Nat × α)) :
      w.asked = (t, a) ::ₘ rest → (∀ id, carries id a → tells id b) →
    Step carries tells w { w with asked := rest, flying := (t, b) ::ₘ w.flying, answered := w.answered ++ [(t, b)] }
  | take (i : ι) (t : Nat) (id : κ) (x : Nat × β) (rest : Multiset (Nat × β)) : w.outstanding i = some (t, id) →
    w.flying = x ::ₘ rest → tells id x.2 →
    Step carries tells w
      { w with outstanding := Function.update w.outstanding i none, flying := rest,
               received := w.received ++ [⟨i, t, id, x⟩] }

/-- The tickets of the requests, answered or not. -/
def World.used (w : World ι κ α β) : Multiset Nat := w.asked.map Prod.fst + (w.answered.map Prod.fst : List Nat)

/-- Every request and every reply is of a client that waits for it, and none is there twice. -/
structure Sound (carries : κ → α → Prop) (tells : κ → β → Prop) (w : World ι κ α β) : Prop where
  ids : ∀ i j t t' id, w.outstanding i = some (t, id) → w.outstanding j = some (t', id) → i = j
  asked : ∀ x ∈ w.asked, ∃ i id, w.outstanding i = some (x.1, id) ∧ carries id x.2
  flying : ∀ x ∈ w.flying, ∃ i id, w.outstanding i = some (x.1, id) ∧ tells id x.2
  once : w.used.Nodup
  fresh : ∀ t ∈ w.used, t < w.next
  conserved : (w.answered : Multiset (Nat × β)) = (w.received.map Receipt.taken : List (Nat × β)) + w.flying
  own : ∀ r ∈ w.received, r.taken.1 = r.ticket ∧ tells r.id r.taken.2

/-- Each client that returned took the reply to its own request, and no reply is lost or there twice. -/
structure Matched (tells : κ → β → Prop) (w : World ι κ α β) : Prop where
  own : ∀ r ∈ w.received, r.taken.1 = r.ticket ∧ tells r.id r.taken.2
  conserved : (w.answered : Multiset (Nat × β)) = (w.received.map Receipt.taken : List (Nat × β)) + w.flying
  once : (w.answered.map Prod.fst).Nodup

theorem Sound.matched (sound : Sound carries tells w) : Matched tells w :=
  ⟨sound.own, sound.conserved, Multiset.coe_nodup.mp
  (Multiset.nodup_of_le (Multiset.le_add_left _ _) sound.once)⟩

theorem sound_start : Sound carries tells ({} : World ι κ α β) :=
  ⟨nofun, nofun, nofun, by simp [World.used], by simp [World.used], by simp, nofun⟩

/-- The tickets that were answered are of replies that were taken or are there. -/
theorem Sound.mem_answered (sound : Sound carries tells w) {x : Nat × β} (member : x ∈ w.flying) :
    x.1 ∈ w.answered.map Prod.fst := by
  have inside : x ∈ (w.answered : Multiset (Nat × β)) := by
    rw [sound.conserved]
    exact Multiset.mem_add.mpr (Or.inr member)
  exact List.mem_map_of_mem (Multiset.mem_coe.mp inside)

/-- What a client returned with was answered. -/
theorem Sound.taken_mem_answered (sound : Sound carries tells w) {r : Receipt ι κ β} (member : r ∈ w.received) :
    r.taken ∈ w.answered := by
  have taken : r.taken ∈ ((w.received.map Receipt.taken : List (Nat × β)) : Multiset (Nat × β)) :=
    Multiset.mem_coe.mpr (List.mem_map_of_mem member)
  have inside : r.taken ∈ (w.answered : Multiset (Nat × β)) := by
    rw [sound.conserved]
    exact Multiset.mem_add.mpr (Or.inl taken)
  exact Multiset.mem_coe.mp inside

/-- A ticket that was answered was handed out. -/
theorem Sound.lt_of_mem_answered (sound : Sound carries tells w) {x : Nat × β} (member : x ∈ w.answered) :
    x.1 < w.next :=
  sound.fresh x.1 (Multiset.mem_add.mpr (Or.inr (Multiset.mem_coe.mpr (List.mem_map_of_mem member))))

/-- A reply that tells the id of a waiting client is the one to its request. -/
theorem Sound.ticket_eq (unique : ∀ id id' b, tells id b → tells id' b → id = id')
    (sound : Sound carries tells w) {i : ι} {t : Nat} {id : κ} {x : Nat × β}
    (waits : w.outstanding i = some (t, id)) (member : x ∈ w.flying) (told : tells id x.2) : x.1 = t := by
  obtain ⟨j, id', waits', told'⟩ := sound.flying x member
  obtain rfl := unique id id' x.2 told told'
  obtain rfl := sound.ids j i _ _ _ waits' waits
  exact (Prod.mk.inj (Option.some.inj (waits'.symm.trans waits))).1

variable [DecidableEq ι]

/-- A client that returns leaves no request of its own behind, and no further reply. -/
theorem Sound.take (unique : ∀ id id' b, tells id b → tells id' b → id = id')
    (sound : Sound carries tells w) {i : ι} {t : Nat} {id : κ} {x : Nat × β} {rest : Multiset (Nat × β)}
    (waits : w.outstanding i = some (t, id)) (flying : w.flying = x ::ₘ rest) (told : tells id x.2) :
    Sound carries tells
      { w with outstanding := Function.update w.outstanding i none, flying := rest,
               received := w.received ++ [⟨i, t, id, x⟩] } := by
  have member : x ∈ w.flying := by rw [flying]; exact Multiset.mem_cons_self x rest
  have own := sound.ticket_eq unique waits member told
  have single := sound.matched.once
  have notAsked : ∀ y ∈ w.asked, y.1 ≠ t := by
    intro y isAsked same
    have apart := (Multiset.nodup_add.mp sound.once).2.2
    refine Multiset.disjoint_left.mp apart (Multiset.mem_map_of_mem Prod.fst isAsked) ?_
    rw [same, ← own]
    exact Multiset.mem_coe.mpr (sound.mem_answered member)
  have notFlying : ∀ y ∈ rest, y.1 ≠ t := by
    intro y isFlying same
    have whole := congrArg (Multiset.map Prod.fst) sound.conserved
    rw [flying, Multiset.map_add, Multiset.map_cons, Multiset.map_coe] at whole
    have nodup := Multiset.coe_nodup.mpr single
    rw [whole] at nodup
    have cut := Multiset.nodup_cons.mp (Multiset.nodup_add.mp nodup).2.1
    exact cut.1 (by rw [own, ← same]; exact Multiset.mem_map_of_mem Prod.fst isFlying)
  have others : ∀ y : Nat, y ≠ t → ∀ j id', w.outstanding j = some (y, id') → j ≠ i := by
    rintro y apart j id' waits' rfl
    exact apart (Prod.mk.inj (Option.some.inj (waits'.symm.trans waits))).1
  refine ⟨fun j k s s' id' left right => ?_, fun y isAsked => ?_, fun y isFlying => ?_, sound.once,
    sound.fresh, ?_, ?_⟩
  · by_cases atJ : j = i
    · simp [atJ] at left
    · by_cases atK : k = i
      · simp [atK] at right
      · exact sound.ids j k s s' id' (by simpa [atJ] using left) (by simpa [atK] using right)
  · obtain ⟨j, id', waits', carried⟩ := sound.asked y isAsked
    exact ⟨j, id', by simpa [others y.1 (notAsked y isAsked) j id' waits'] using waits', carried⟩
  · obtain ⟨j, id', waits', told'⟩ := sound.flying y (by rw [flying]; exact Multiset.mem_cons_of_mem isFlying)
    exact ⟨j, id', by simpa [others y.1 (notFlying y isFlying) j id' waits'] using waits', told'⟩
  · rw [sound.conserved, flying, List.map_append, ← Multiset.coe_add, add_assoc]
    rfl
  · intro r isReceived
    rcases List.mem_append.mp isReceived with old | new
    · exact sound.own r old
    · obtain rfl := List.mem_singleton.mp new
      exact ⟨own, told⟩

/-- A step keeps the world sound. -/
theorem Sound.step (unique : ∀ id id' b, tells id b → tells id' b → id = id') (sound : Sound carries tells w)
    (step : Step carries tells w w') : Sound carries tells w' := by
  cases step with
  | ask i id a idle free carried =>
    have others : ∀ j t id', w.outstanding j = some (t, id') → j ≠ i := by
      rintro j t id' waits rfl
      rw [idle] at waits
      cases waits
    have used : World.used
        { w with outstanding := Function.update w.outstanding i (some (w.next, id)), asked := (w.next, a) ::ₘ w.asked,
                 next := w.next + 1 } =
          w.next ::ₘ w.used := by
      simp [World.used]
    refine ⟨fun j k s s' id' left right => ?_, fun y isAsked => ?_, fun y isFlying => ?_, ?_, fun t isUsed => ?_,
      sound.conserved, sound.own⟩
    · by_cases atJ : j = i
      · by_cases atK : k = i
        · rw [atJ, atK]
        · obtain ⟨-, rfl⟩ : w.next = s ∧ id = id' := by simpa [atJ] using left
          exact absurd (by simpa [atK] using right) (free k s')
      · by_cases atK : k = i
        · obtain ⟨-, rfl⟩ : w.next = s' ∧ id = id' := by simpa [atK] using right
          exact absurd (by simpa [atJ] using left) (free j s)
        · exact sound.ids j k s s' id' (by simpa [atJ] using left) (by simpa [atK] using right)
    · rcases Multiset.mem_cons.mp isAsked with rfl | old
      · exact ⟨i, id, by simp, carried⟩
      · obtain ⟨j, id', waits, carried'⟩ := sound.asked y old
        exact ⟨j, id', by simpa [others j y.1 id' waits] using waits, carried'⟩
    · obtain ⟨j, id', waits, told⟩ := sound.flying y isFlying
      exact ⟨j, id', by simpa [others j y.1 id' waits] using waits, told⟩
    · rw [used]
      exact Multiset.nodup_cons.mpr ⟨fun member => Nat.lt_irrefl _ (sound.fresh _ member), sound.once⟩
    · rw [used] at isUsed
      rcases Multiset.mem_cons.mp isUsed with rfl | old
      · exact Nat.lt_succ_self _
      · exact Nat.lt_succ_of_lt (sound.fresh t old)
  | drop x rest asked =>
    have less : World.used { w with asked := rest } ≤ w.used := by
      rw [World.used, World.used, asked]
      exact add_le_add_left (Multiset.map_le_map (Multiset.le_cons_self rest x)) _
    refine ⟨sound.ids, fun y isAsked => sound.asked y ?_, sound.flying, Multiset.nodup_of_le less sound.once,
      fun t isUsed => sound.fresh t (Multiset.mem_of_le less isUsed), sound.conserved, sound.own⟩
    rw [asked]
    exact Multiset.mem_cons_of_mem isAsked
  | answer t a b rest asked told =>
    have used : World.used
        { w with asked := rest, flying := (t, b) ::ₘ w.flying, answered := w.answered ++ [(t, b)] } =
        w.used := by
      have moved : ((w.answered.map Prod.fst ++ [t] : List Nat) : Multiset Nat) =
          t ::ₘ (w.answered.map Prod.fst : List Nat) := by
        rw [← Multiset.coe_add, Multiset.coe_singleton, add_comm, Multiset.singleton_add]
      simp only [World.used, asked, Multiset.map_cons, List.map_append, List.map_cons, List.map_nil, moved]
      rw [Multiset.add_cons, Multiset.cons_add]
    have member : (t, a) ∈ w.asked := by rw [asked]; exact Multiset.mem_cons_self _ _
    refine ⟨sound.ids, fun y isAsked => sound.asked y ?_, fun y isFlying => ?_, ?_, fun s isUsed => ?_, ?_, sound.own⟩
    · rw [asked]
      exact Multiset.mem_cons_of_mem isAsked
    · rcases Multiset.mem_cons.mp isFlying with rfl | old
      · obtain ⟨i, id, waits, carried⟩ := sound.asked _ member
        exact ⟨i, id, waits, told id carried⟩
      · exact sound.flying y old
    · rw [used]
      exact sound.once
    · rw [used] at isUsed
      exact sound.fresh s isUsed
    · rw [← Multiset.coe_add, sound.conserved, add_assoc, add_comm w.flying]
      rfl
  | take i t id x rest waits flying told => exact sound.take unique waits flying told

/-- A world stays sound over a run. -/
theorem Sound.run (unique : ∀ id id' b, tells id b → tells id' b → id = id') (sound : Sound carries tells w)
    (run : ReflTransGen (Step carries tells) w w') : Sound carries tells w' := by
  induction run with
  | refl => exact sound
  | tail _ step ih => exact ih.step unique step

/-- A step that asks nothing: what is there after it was there before it. -/
theorem Step.back (step : Step carries tells w w') (same : w'.next = w.next) :
    (∀ x ∈ w'.asked, x ∈ w.asked) ∧ (∀ i t id, w'.outstanding i = some (t, id) → w.outstanding i = some (t, id)) ∧
      ∀ r ∈ w'.received, r ∈ w.received ∨ w.outstanding r.client = some (r.ticket, r.id) := by
  cases step with
  | ask i id a idle free carried => exact absurd same (Nat.succ_ne_self _)
  | drop x rest asked =>
    refine ⟨fun y there => ?_, fun _ _ _ waits => waits, fun _ => Or.inl⟩
    rw [asked]
    exact Multiset.mem_cons_of_mem there
  | answer t a b rest asked told =>
    refine ⟨fun y there => ?_, fun _ _ _ waits => waits, fun _ => Or.inl⟩
    rw [asked]
    exact Multiset.mem_cons_of_mem there
  | take i t id x rest waits flying told =>
    refine ⟨fun _ there => there, fun j t' id' held => ?_, fun r isReceived => ?_⟩
    · by_cases atJ : j = i
      · simp [atJ] at held
      · simpa [atJ] using held
    · rcases List.mem_append.mp isReceived with old | new
      · exact Or.inl old
      · obtain rfl := List.mem_singleton.mp new
        exact Or.inr waits

omit [DecidableEq ι] in
/-- The tickets that clients wait with: handed out, each to one client, and not returned with. -/
structure Waiting (w : World ι κ α β) : Prop where
  below : ∀ i t id, w.outstanding i = some (t, id) → t < w.next
  alone : ∀ i j t id id', w.outstanding i = some (t, id) → w.outstanding j = some (t, id') → i = j
  returned : ∀ r ∈ w.received, ∀ i id, w.outstanding i ≠ some (r.ticket, id)

omit [DecidableEq ι] in
theorem waiting_start : Waiting ({} : World ι κ α β) := ⟨nofun, nofun, nofun⟩

/-- A step keeps the tickets of the waiting clients apart. -/
theorem Waiting.step (waiting : Waiting w) (sound : Sound carries tells w) (step : Step carries tells w w') :
    Waiting w' := by
  cases step with
  | ask i id a idle free carried =>
    have cases_ : ∀ j t id', Function.update w.outstanding i (some (w.next, id)) j = some (t, id') →
        j = i ∧ t = w.next ∨ j ≠ i ∧ w.outstanding j = some (t, id') := by
      intro j t id' waits
      by_cases atJ : j = i
      · subst atJ
        rw [Function.update_self] at waits
        exact Or.inl ⟨rfl, (Prod.mk.inj (Option.some.inj waits)).1.symm⟩
      · rw [Function.update_of_ne atJ] at waits
        exact Or.inr ⟨atJ, waits⟩
    refine ⟨fun j t id' waits => ?_, fun j k t id' id'' left right => ?_, fun r isReceived j id' waits => ?_⟩
    · obtain ⟨-, rfl⟩ | ⟨-, old⟩ := cases_ j t id' waits
      · exact Nat.lt_succ_self _
      · exact Nat.lt_succ_of_lt (waiting.below j t id' old)
    · obtain ⟨rfl, rfl⟩ | ⟨-, oldJ⟩ := cases_ j t id' left
      · obtain ⟨rfl, -⟩ | ⟨-, oldK⟩ := cases_ k _ id'' right
        · rfl
        · exact absurd (waiting.below k _ id'' oldK) (Nat.lt_irrefl _)
      · obtain ⟨-, rfl⟩ | ⟨-, oldK⟩ := cases_ k t id'' right
        · exact absurd (waiting.below j _ id' oldJ) (Nat.lt_irrefl _)
        · exact waiting.alone j k t id' id'' oldJ oldK
    · obtain ⟨-, new⟩ | ⟨-, held⟩ := cases_ j r.ticket id' waits
      · have before := sound.lt_of_mem_answered (sound.taken_mem_answered isReceived)
        rw [(sound.own r isReceived).1, new] at before
        exact Nat.lt_irrefl _ before
      · exact waiting.returned r isReceived j id' held
  | drop x rest asked => exact ⟨waiting.below, waiting.alone, waiting.returned⟩
  | answer t a b rest asked told => exact ⟨waiting.below, waiting.alone, waiting.returned⟩
  | take i t id x rest waits flying told =>
    have others : ∀ j t' id', Function.update w.outstanding i none j = some (t', id') →
        j ≠ i ∧ w.outstanding j = some (t', id') := by
      intro j t' id' held
      by_cases atJ : j = i
      · simp [atJ] at held
      · exact ⟨atJ, by rwa [Function.update_of_ne atJ] at held⟩
    refine ⟨fun j t' id' held => waiting.below j t' id' (others j t' id' held).2,
      fun j k t' id' id'' left right => waiting.alone j k t' id' id'' (others j t' id' left).2 (others k t' id'' right).2,
      fun r isReceived j id' held => ?_⟩
    obtain ⟨apart, held⟩ := others j _ id' held
    rcases List.mem_append.mp isReceived with old | new
    · exact waiting.returned r old j id' held
    · obtain rfl := List.mem_singleton.mp new
      exact apart (waiting.alone j i t id' id held waits)

omit [DecidableEq ι] in
/-- While no request was dropped, what a client waits for is asked or flying. -/
theorem Sound.covered (sound : Sound carries tells w) (waiting : Waiting w)
    (full : w.asked.card + w.answered.length = w.next) {i : ι} {t : Nat} {id : κ}
    (waits : w.outstanding i = some (t, id)) : t ∈ w.asked.map Prod.fst ∨ t ∈ w.flying.map Prod.fst := by
  -- the tickets that were handed out are as many as those that are in use
  have whole : w.used = Multiset.range w.next := by
    refine Multiset.eq_of_le_of_card_le ?_ ?_
    · exact (Multiset.le_iff_subset sound.once).mpr fun t used => Multiset.mem_range.mpr (sound.fresh t used)
    · simp [World.used, full]
  have used : t ∈ w.used := whole ▸ Multiset.mem_range.mpr (waiting.below i t id waits)
  refine (Multiset.mem_add.mp used).imp_right fun answered => ?_
  obtain ⟨x, isAnswered, rfl⟩ := List.mem_map.mp (Multiset.mem_coe.mp answered)
  have member : x ∈ (w.answered : Multiset (Nat × β)) := Multiset.mem_coe.mpr isAnswered
  rw [sound.conserved] at member
  rcases Multiset.mem_add.mp member with taken | flying
  · obtain ⟨r, isReceived, rfl⟩ := List.mem_map.mp (Multiset.mem_coe.mp taken)
    rw [(sound.own r isReceived).1] at waits
    exact absurd waits (waiting.returned r isReceived i id)
  · exact Multiset.mem_map_of_mem Prod.fst flying

omit [DecidableEq ι] in
theorem Sound.flying_nodup (sound : Sound carries tells w) : (w.flying.map Prod.fst).Nodup := by
  have whole := congrArg (Multiset.map Prod.fst) sound.conserved
  rw [Multiset.map_add, Multiset.map_coe] at whole
  have nodup := Multiset.coe_nodup.mpr sound.matched.once
  rw [whole] at nodup
  exact (Multiset.nodup_add.mp nodup).2.1

omit [DecidableEq ι] in
/-- The replies are no more than the clients that wait for one of them. -/
theorem Sound.card_flying_le (sound : Sound carries tells w) (clients : Finset ι)
    (covers : ∀ i t id, w.outstanding i = some (t, id) → t ∈ w.flying.map Prod.fst → i ∈ clients) :
    w.flying.card ≤ clients.card := by
  have inside : (w.flying.map Prod.fst).toFinset ⊆ clients.image fun i => ((w.outstanding i).map Prod.fst).getD 0 := by
    intro t member
    obtain ⟨x, flying, rfl⟩ := Multiset.mem_map.mp (Multiset.mem_toFinset.mp member)
    obtain ⟨i, id, waits, -⟩ := sound.flying x flying
    refine Finset.mem_image.mpr ⟨i, covers i x.1 id waits (Multiset.mem_map_of_mem Prod.fst flying), ?_⟩
    rw [waits]
    rfl
  calc w.flying.card = (w.flying.map Prod.fst).toFinset.card := by
        rw [Multiset.toFinset_card_of_nodup sound.flying_nodup, Multiset.card_map]
    _ ≤ (clients.image fun i => ((w.outstanding i).map Prod.fst).getD 0).card := Finset.card_le_card inside
    _ ≤ clients.card := Finset.card_image_le

end RequestReply
