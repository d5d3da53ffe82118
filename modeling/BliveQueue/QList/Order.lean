/-
# The order of the queue

On a queue whose weights do not increase towards the tail, an insertion finds
the stable place of the newcomer or refuses it, and the remembered unit makes no
difference. What breaks the order is the other write path: a call for an
anchorage that is already queued overwrites the weight where the unit stands.
The order therefore survives exactly those runs whose refreshes keep the new
weight between the weights around the unit. All of this holds of every rank that
does not decrease with the weight: the queue may be in order of rank although the
weights themselves are out of order.
-/

import BliveQueue.QList.Line

namespace BliveQueue.QList

open BliveQueue.Math BliveQueue.Utils BliveQueue.Utils.QList

variable {q q' : BliveQlist} {s t : Sequence} {new c : Cell}

/-! ## Insertion into an ordered sequence -/

/-- The front alone has weight `w`, and everybody behind it, at least one, is lighter. -/
def Blocked {α : Type*} (weight : α → ℕ) (w : ℕ) : List α → Prop
  | [] => False
  | front :: rest => weight front = w ∧ rest ≠ [] ∧ ∀ c ∈ rest, weight c < w

instance {α : Type*} (weight : α → ℕ) (w : ℕ) : ∀ l : List α, Decidable (Blocked weight w l)
  | [] => isFalse id
  | front :: rest =>
    inferInstanceAs (Decidable (weight front = w ∧ rest ≠ [] ∧ ∀ c ∈ rest, weight c < w))

theorem blocked_map_iff {α β : Type*} {weight : α → ℕ} {w : ℕ} (f : β → α) {l : List β} :
    Blocked weight w (l.map f) ↔ Blocked (weight ∘ f) w l := by
  cases l <;> simp [Blocked]

theorem weight_le_front {front : Cell} {rest : List Cell}
    (hord : NonIncreasing Cell.weight (front :: rest)) :
    ∀ c ∈ front :: rest, c.weight ≤ front.weight := by
  intro c hc
  rcases List.mem_cons.mp hc with rfl | hc
  · exact le_rfl
  · exact (List.pairwise_cons.mp hord).1 c hc

theorem last_le_weight {front : Cell} {rest : List Cell}
    (hord : NonIncreasing Cell.weight (front :: rest)) :
    ∀ c ∈ front :: rest, (rest.getLastD front).weight ≤ c.weight := by
  intro c hc
  rcases List.eq_nil_or_concat rest with rfl | ⟨rest, x, rfl⟩
  · obtain rfl : c = front := by simpa using hc
    exact le_rfl
  · have hord' : NonIncreasing Cell.weight ((front :: rest) ++ [x]) := by simpa using hord
    rw [List.concat_eq_append, List.getLastD_concat]
    rcases (by simpa [or_assoc] using hc : c = front ∨ c ∈ rest ∨ c = x) with rfl | hc | rfl
    · exact (List.pairwise_append.mp hord').2.2 c (by simp) x (by simp)
    · exact (List.pairwise_append.mp hord').2.2 c (by simp [hc]) x (by simp)
    · exact le_rfl

namespace Sequence

/-- In an ordered sequence everything a window leaves out behind its range is
lighter than the newcomer. -/
theorem behind_lt {front : Cell} {rest : List Cell} (tmp : Option Addr)
    (hord : NonIncreasing Cell.weight (front :: rest)) (hfront : new.weight ≤ front.weight) :
    ∀ c ∈ (window front rest tmp new).behind, c.weight < new.weight := by
  rcases window_cases front rest tmp hfront with
    hw | ⟨before, t, behind, -, hcells, ⟨-, hw⟩ | ⟨before', rfl, hlight, hw⟩⟩
  · simp [hw]
  · simp [hw]
  · intro c hc
    rw [hw] at hc
    rw [hcells] at hord
    have htail := (List.pairwise_append.mp hord).2.1
    exact ((List.pairwise_cons.mp htail).1 c hc).trans_lt hlight

/-- Behind the range of a window there is something only if the remembered unit ends the
range, and then it is too light to be the place. -/
theorem exists_lighter_of_window {front : Cell} {rest l r : List Cell} (tmp : Option Addr)
    (hfits : new.weight ≤ front.weight)
    (hscanned : (window front rest tmp new).scanned = l ++ r)
    (hheavy : new.weight ≤ (l.getLastD (window front rest tmp new).endUnit).weight)
    (hc : c ∈ (window front rest tmp new).behind) : ∃ d ∈ r, d.weight < new.weight := by
  rcases window_cases front rest tmp hfits with
    hw | ⟨before, t, behind, -, -, ⟨-, hw⟩ | ⟨before', -, hlight, hw⟩⟩
  · rw [hw] at hc
    cases hc
  · rw [hw] at hc
    cases hc
  · rw [hw] at hscanned hheavy
    rcases List.eq_nil_or_concat r with rfl | ⟨r, last, rfl⟩
    · rw [List.append_nil] at hscanned
      rw [← hscanned, List.getLastD_concat] at hheavy
      exact absurd hlight (not_lt.mpr hheavy)
    · rw [List.concat_eq_append, ← List.append_assoc] at hscanned
      obtain ⟨-, hsame⟩ := List.append_inj' hscanned rfl
      obtain rfl : t = last := List.singleton_inj.mp hsame
      exact ⟨t, by simp, hlight⟩

/-- Whatever the order of the sequence, a new unit stands at the front or right behind one that
is not lighter, and it overtakes a heavier one only if that one already stands behind a lighter
one. -/
theorem exists_split_of_place {cells' : List Cell} (hcount : s.count = 0 → s.cells = [])
    (hplace : s.place new = some cells') :
    ∃ front back, s.cells = front ++ back ∧ cells' = front ++ new :: back ∧
      (∀ c ∈ front.getLast?, new.weight ≤ c.weight) ∧
      ∀ c ∈ back, new.weight < c.weight →
        ∃ d, d.weight < new.weight ∧ List.Sublist [d, c] back := by
  have hnobody : ∀ c ∈ ([] : List Cell), new.weight < c.weight →
      ∃ d, d.weight < new.weight ∧ List.Sublist [d, c] [] :=
    fun c hc => absurd hc List.not_mem_nil
  have hfirst : ∀ c ∈ ([] : List Cell).getLast?, new.weight ≤ c.weight := by simp
  cases placed_of_place hplace with
  | uncounted zero => exact ⟨[], [], hcount zero, by rw [hcount zero]; rfl, hfirst, hnobody⟩
  | alone empty => exact ⟨[], [], empty, rfl, hfirst, hnobody⟩
  | @ahead front rest cells light =>
      refine ⟨[], front :: rest, cells, rfl, hfirst, fun c hc hheavy => ⟨front, light, ?_⟩⟩
      rcases List.mem_cons.mp hc with rfl | hc
      · exact absurd light hheavy.not_gt
      · exact (List.singleton_sublist.mpr hc).cons_cons front
  | @rear front rest cells heavy =>
      refine ⟨front :: rest, [], by simp [cells], rfl, ?_, hnobody⟩
      rw [List.getLast?_cons, ← List.getLastD_eq_getLast?]
      rintro _ ⟨⟩
      exact heavy
  | @inWindow front rest l r w cells fits range scanned light heavy =>
      refine ⟨w.before ++ w.endUnit :: l, r ++ w.behind,
        cells_eq_of_window cells fits range scanned, by simp, ?_, fun c hc hheavy => ?_⟩
      · rw [List.getLast?_append_of_ne_nil _ (List.cons_ne_nil _ _), List.getLast?_cons,
          ← List.getLastD_eq_getLast?]
        rintro _ ⟨⟩
        exact heavy
      have hc : c ∈ w.behind :=
        (List.mem_append.mp hc).resolve_left fun hmem => absurd (light c hmem) hheavy.not_gt
      subst range
      obtain ⟨d, hd, hlight⟩ := exists_lighter_of_window s.tmp fits scanned heavy hc
      exact ⟨d, hlight, (List.singleton_sublist.mpr hd).append (List.singleton_sublist.mpr hc)⟩

/-- An ordered sequence refuses exactly the newcomers that tie with a front
nobody else ties with. -/
theorem place_eq_none_iff_blocked (hord : NonIncreasing Cell.weight s.cells)
    (hcount : s.count = 0 → s.cells = []) :
    s.place new = none ↔ Blocked Cell.weight new.weight s.cells := by
  rw [place_eq_none_iff]
  constructor
  · rintro ⟨-, front, rest, hcells, hfront, hlast, hall, hend⟩
    rw [hcells] at hord ⊢
    have hrest : rest ≠ [] := by
      rintro rfl
      exact absurd hfront (not_le.mpr (by simpa using hlast))
    have hbehind := behind_lt s.tmp hord hfront
    rcases window_cases front rest s.tmp hfront with
      hw | ⟨before, t, behind, -, -, ⟨hheavy, hw⟩ | ⟨before', rfl, -, hw⟩⟩
    · rw [hw] at hall hend
      exact ⟨le_antisymm hend hfront, hrest, hall⟩
    · rw [hw] at hend
      exact absurd hend (not_le.mpr hheavy)
    · have hcut := window_append rest s.tmp hfront
      rw [hw] at hall hend hbehind hcut
      obtain rfl : rest = before' ++ [t] ++ behind := (List.cons.inj hcut).2
      refine ⟨le_antisymm hend hfront, hrest, fun c hc => ?_⟩
      exact (List.mem_append.mp hc).elim (hall c) (hbehind c)
  · intro hblocked
    cases hcells : s.cells with
    | nil =>
        rw [hcells] at hblocked
        exact hblocked.elim
    | cons front rest =>
        rw [hcells] at hord hblocked
        obtain ⟨heq, hrest, hlt⟩ := hblocked
        refine ⟨fun hzero => ?_, front, rest, rfl, heq.ge, ?_, ?_⟩
        · simp [hcells] at hcount
          exact hcount hzero
        · obtain ⟨l, x, rfl⟩ := (List.eq_nil_or_concat rest).resolve_left hrest
          rw [List.concat_eq_append, List.getLastD_concat]
          exact hlt x (by simp)
        · have hcut := window_append rest s.tmp heq.ge
          rcases window_cases front rest s.tmp heq.ge with
            hw | ⟨before, t, behind, -, hsplit, ⟨hheavy, -⟩ | ⟨before', rfl, -, hw⟩⟩
          · rw [hw]
            exact ⟨hlt, heq.le⟩
          · have ht := weight_le_front hord t (hsplit ▸ by simp)
            exact absurd (heq ▸ ht) (not_le.mpr hheavy)
          · rw [hw] at hcut ⊢
            obtain rfl : rest = before' ++ [t] ++ behind := (List.cons.inj hcut).2
            exact ⟨fun c hc => hlt c (List.mem_append_left _ hc), heq.le⟩

/-- The units in front of a place in a window are as heavy as the last of them. -/
theorem le_weight_of_window {before l back : List Cell} {e : Cell}
    (hord : NonIncreasing Cell.weight ((before ++ e :: l) ++ back))
    (hheavy : new.weight ≤ (l.getLastD e).weight) :
    ∀ c ∈ before ++ e :: l, new.weight ≤ c.weight := by
  intro c hc
  apply hheavy.trans
  obtain ⟨-, hwindow, hcross⟩ := List.pairwise_append.mp (List.pairwise_append.mp hord).1
  have hmem : l.getLastD e ∈ e :: l := List.getLastD_mem_cons
  rcases List.mem_append.mp hc with hc | hc
  · exact hcross c hc _ hmem
  · exact last_le_weight hwindow c hc

/-- An ordered sequence puts every other newcomer at its stable place. -/
theorem place_eq_stableInsert (hord : NonIncreasing Cell.weight s.cells)
    (hcount : s.count = 0 → s.cells = []) {cells' : List Cell}
    (hplace : s.place new = some cells') :
    cells' = stableInsert Cell.weight new s.cells := by
  cases placed_of_place hplace with
  | uncounted zero =>
      rw [hcount zero]
      rfl
  | alone empty =>
      rw [empty]
      rfl
  | @ahead front rest cells light =>
      rw [cells] at hord ⊢
      have hlight : ∀ c ∈ front :: rest, c.weight < new.weight := fun c hc =>
        (weight_le_front hord c hc).trans_lt light
      have hstable : stableInsert Cell.weight new ([] ++ front :: rest) =
          [] ++ new :: front :: rest := stableInsert_eq (by simp) hlight
      exact hstable.symm
  | @rear front rest cells heavy =>
      rw [cells] at hord ⊢
      have hheavy : ∀ c ∈ front :: rest, new.weight ≤ c.weight := fun c hc =>
        heavy.trans (last_le_weight hord c hc)
      have hstable : stableInsert Cell.weight new (front :: rest ++ []) =
          front :: rest ++ new :: [] := stableInsert_eq hheavy (by simp)
      simpa using hstable.symm
  | @inWindow front rest l r w cells fits range scanned light heavy =>
      have hsplit := cells_eq_of_window cells fits range scanned
      have hbehind := behind_lt s.tmp (cells ▸ hord) fits
      rw [range] at hbehind
      have hlight : ∀ c ∈ r ++ w.behind, c.weight < new.weight := by
        intro c hc
        exact (List.mem_append.mp hc).elim (light c) (hbehind c)
      rw [hsplit] at hord ⊢
      rw [stableInsert_eq (le_weight_of_window hord heavy) hlight]
      simp

end Sequence

/-! ## Refreshing in place -/

/-- The part of a line in front of an anchorage. -/
def aheadOf (a : UInt32) (line : List Pair) : List Pair :=
  line.takeWhile fun p => p.1 ≠ a

/-- The part of a line behind an anchorage. -/
def behind (a : UInt32) (line : List Pair) : List Pair :=
  (line.dropWhile fun p => p.1 ≠ a).tail

theorem exists_eq_aheadOf_append {a : UInt32} {line : List Pair}
    (queued : a ∈ line.map Prod.fst) :
    ∃ old, line = aheadOf a line ++ (a, old) :: behind a line := by
  cases hdrop : line.dropWhile (fun p => p.1 ≠ a) with
  | nil =>
      obtain ⟨p, hp, rfl⟩ := List.mem_map.mp queued
      have := List.dropWhile_eq_nil_iff.mp hdrop p hp
      simp at this
  | cons p rest =>
      have hpa : p.1 = a := by
        have := List.head?_dropWhile_not (fun p : Pair => decide (p.1 ≠ a)) line
        rw [hdrop] at this
        simpa using this
      refine ⟨p.2, ?_⟩
      rw [behind, aheadOf, hdrop, List.tail_cons, ← hpa, Prod.mk.eta, hpa, ← hdrop,
        List.takeWhile_append_dropWhile]

/-- A refresh replaces the one unit of the anchorage where it stands. -/
theorem replaceData_eq {a : UInt32} {line : List Pair} (distinct : (line.map Prod.fst).Nodup)
    (queued : a ∈ line.map Prod.fst) (d : QlistUnitData) :
    replaceData a d line = aheadOf a line ++ (a, d) :: behind a line := by
  obtain ⟨old, hline⟩ := exists_eq_aheadOf_append queued
  generalize aheadOf a line = front at hline ⊢
  generalize behind a line = back at hline ⊢
  subst hline
  rw [List.map_append, List.map_cons] at distinct
  have hout := (List.nodup_cons.mp (List.nodup_middle.mp distinct)).1
  have hkeep : ∀ l : List Pair, a ∉ l.map Prod.fst → replaceData a d l = l := by
    intro l hl
    refine (List.map_congr_left fun p hp => ?_).trans (List.map_id l)
    have hpa : p.1 ≠ a := fun heq => hl (heq ▸ List.mem_map_of_mem hp)
    simp [hpa]
  have hsplit : replaceData a d (front ++ (a, old) :: back) =
      replaceData a d front ++ (a, d) :: replaceData a d back := by
    simp [replaceData]
  rw [hsplit, hkeep front fun h => hout (List.mem_append_left _ h),
    hkeep back fun h => hout (List.mem_append_right _ h)]

section Rank

variable {κ : Type*} [LinearOrder κ] (rank : ℕ → κ)

/-- The new weight of a queued anchorage ranks between the weights around it. -/
def FitsRank (a : UInt32) (d : QlistUnitData) (line : List Pair) : Prop :=
  (∀ p ∈ aheadOf a line, rank d.weight.toNat ≤ rank p.weight) ∧
    ∀ p ∈ behind a line, rank p.weight ≤ rank d.weight.toNat

instance (a : UInt32) (d : QlistUnitData) (line : List Pair) : Decidable (FitsRank rank a d line) :=
  inferInstanceAs (Decidable ((∀ p ∈ aheadOf a line, rank d.weight.toNat ≤ rank p.weight) ∧
    ∀ p ∈ behind a line, rank p.weight ≤ rank d.weight.toNat))

/-- A refresh of a line in order of rank leaves it so exactly when the new weight fits. -/
theorem nonIncreasing_rank_replaceData_iff {a : UInt32} {d : QlistUnitData} {line : List Pair}
    (distinct : (line.map Prod.fst).Nodup) (queued : a ∈ line.map Prod.fst)
    (hord : NonIncreasing (fun p : Pair => rank p.weight) line) :
    NonIncreasing (fun p : Pair => rank p.weight) (replaceData a d line) ↔
      FitsRank rank a d line := by
  obtain ⟨old, hline⟩ := exists_eq_aheadOf_append queued
  rw [replaceData_eq distinct queued]
  have hsplit : NonIncreasing (fun p : Pair => rank p.weight)
      (aheadOf a line ++ (a, old) :: behind a line) := hline ▸ hord
  exact hsplit.replace_iff

end Rank

/-- The new weight of a queued anchorage lies between the weights around it. -/
def Fits (a : UInt32) (d : QlistUnitData) (line : List Pair) : Prop :=
  (∀ p ∈ aheadOf a line, d.weight.toNat ≤ p.weight) ∧
    ∀ p ∈ behind a line, p.weight ≤ d.weight.toNat

instance (a : UInt32) (d : QlistUnitData) (line : List Pair) : Decidable (Fits a d line) := by
  unfold Fits
  infer_instance

/-! ## Runs -/

/-- The counter has room, and a call for a queued anchorage brings a weight that
fits where the unit stands. -/
def KeepsOrder (q : BliveQlist) (label : QlistCall × QlistRet) : Prop :=
  HasRoom q label ∧
    match label.1 with
    | .appendUpdate a d _ => ∀ line ∈ QList.ring q, a ∈ line.map Prod.fst → Fits a d line
    | _ => True

instance (q : BliveQlist) : (label : QlistCall × QlistRet) → Decidable (KeepsOrder q label)
  | (.appendUpdate a d _, _) =>
    inferInstanceAs (Decidable (_ ∧ ∀ line ∈ QList.ring q, a ∈ line.map Prod.fst → Fits a d line))
  | (.subtract _, _) | (.anchorageExistence _, _) => inferInstanceAs (Decidable (_ ∧ True))

section Rank

variable {κ : Type*} [LinearOrder κ] (rank : ℕ → κ)

/-- The counter has room, and a call for a queued anchorage brings a weight that ranks where
the unit stands. -/
def KeepsRank (q : BliveQlist) (label : QlistCall × QlistRet) : Prop :=
  HasRoom q label ∧
    match label.1 with
    | .appendUpdate a d _ =>
      ∀ line ∈ QList.ring q, a ∈ line.map Prod.fst → FitsRank rank a d line
    | _ => True

instance (q : BliveQlist) :
    (label : QlistCall × QlistRet) → Decidable (KeepsRank rank q label)
  | (.appendUpdate a d _, _) => inferInstanceAs (Decidable
      (_ ∧ ∀ line ∈ QList.ring q, a ∈ line.map Prod.fst → FitsRank rank a d line))
  | (.subtract _, _) | (.anchorageExistence _, _) => inferInstanceAs (Decidable (_ ∧ True))

/-- A sound sequence in order of rank. -/
structure Sequence.Ranked (s : Sequence) : Prop extends Sequence.Sound s where
  order : NonIncreasing (fun c : Cell => rank c.weight) s.cells

variable {rank}

theorem Sequence.nonIncreasing_rank_line_iff :
    NonIncreasing (fun p : Pair => rank p.weight) s.line ↔
      NonIncreasing (fun c : Cell => rank c.weight) s.cells :=
  List.pairwise_map

/-- An insertion keeps the order of every rank that does not decrease with the weight, even
if the weights themselves are out of order. -/
theorem Sequence.nonIncreasing_rank_of_place (hrank : Monotone rank)
    (hcount : s.count = 0 → s.cells = [])
    (hord : NonIncreasing (fun c : Cell => rank c.weight) s.cells) {cells' : List Cell}
    (hplace : s.place new = some cells') :
    NonIncreasing (fun c : Cell => rank c.weight) cells' := by
  obtain ⟨front, back, hcells, rfl, hlast, hlighter⟩ := exists_split_of_place hcount hplace
  rw [hcells] at hord
  obtain ⟨hfront, hback, -⟩ := List.pairwise_append.mp hord
  apply hord.insert
  · intro c hc
    rcases List.eq_nil_or_concat front with rfl | ⟨front, last, rfl⟩
    · cases hc
    rw [List.concat_eq_append] at hc hfront hlast
    have hnew : rank new.weight ≤ rank last.weight := hrank (hlast last (by simp))
    rcases List.mem_append.mp hc with hc | hc
    · exact hnew.trans ((List.pairwise_append.mp hfront).2.2 c hc last List.mem_cons_self)
    · obtain rfl := List.mem_singleton.mp hc
      exact hnew
  · intro c hc
    by_contra hless
    have hheavy : new.weight < c.weight := by
      by_contra hle
      exact hless (hrank (not_lt.mp hle))
    obtain ⟨d, hlight, hsub⟩ := hlighter c hc hheavy
    have hpair : NonIncreasing (fun c : Cell => rank c.weight) [d, c] :=
      NonIncreasing.sublist hback hsub
    have hle : rank c.weight ≤ rank d.weight :=
      (List.pairwise_cons.mp hpair).1 c (List.mem_singleton_self c)
    exact hless (hle.trans (hrank hlight.le))

/-- A step that keeps the ranks, on the sequence. -/
theorem Represents.ranked_step (hrank : Monotone rank) (h : Represents q s)
    (hs : s.Ranked rank) {label : QlistCall × QlistRet} (hkeeps : KeepsRank rank q label)
    (taken : qlistSystem.step q label q') :
    (s.call label.1).2.Ranked rank ∧ Represents q' (s.call label.1).2 := by
  obtain ⟨hsound, hrep, -⟩ := h.sound_step hs.toSound hkeeps.1 taken
  refine ⟨⟨hsound, ?_⟩, hrep⟩
  obtain ⟨call, ret⟩ := label
  cases call with
  | appendUpdate a d mem =>
      cases hlookup : s.lookup a with
      | some c =>
          have hqueued := Sequence.mem_line_of_lookup hlookup
          have hfits : FitsRank rank a d s.line := hkeeps.2 _ h.ring_eq_line hqueued
          rw [← Sequence.nonIncreasing_rank_line_iff,
            hs.line_call_refresh h.addr_injOn hlookup d mem]
          exact (nonIncreasing_rank_replaceData_iff rank hs.distinct hqueued
            (Sequence.nonIncreasing_rank_line_iff.mpr hs.order)).mpr hfits
      | none =>
          cases mem with
          | none => simpa [Sequence.call, hlookup] using hs.order
          | some x =>
              cases hplace : s.place ⟨x, ⟨a, d⟩⟩ with
              | none => simpa [Sequence.call, hlookup, hplace] using hs.order
              | some cells =>
                  have hplaced := Sequence.nonIncreasing_rank_of_place hrank
                    hs.count_eq_zero_iff.mp hs.order hplace
                  simpa [Sequence.call, hlookup, hplace] using hplaced
  | subtract a =>
      cases hlookup : s.lookup a with
      | none => simpa [Sequence.call, hlookup] using hs.order
      | some c =>
          simpa [Sequence.call, hlookup] using hs.order.sublist List.filter_sublist
  | anchorageExistence a =>
      cases hlookup : s.lookup a <;> simpa [Sequence.call, hlookup] using hs.order

end Rank

/-- A sound sequence whose weights do not increase towards the tail. -/
structure Sequence.Ordered (s : Sequence) : Prop extends Sequence.Sound s where
  order : NonIncreasing Cell.weight s.cells

theorem Sequence.nonIncreasing_line_iff :
    NonIncreasing Pair.weight s.line ↔ NonIncreasing Cell.weight s.cells :=
  List.pairwise_map

/-- A step that keeps the order, on the sequence. -/
theorem Represents.ordered_step (h : Represents q s) (hs : s.Ordered)
    {label : QlistCall × QlistRet} (hkeeps : KeepsOrder q label)
    (taken : qlistSystem.step q label q') :
    (s.call label.1).2.Ordered ∧ Represents q' (s.call label.1).2 := by
  have hranks : KeepsRank id q label := by
    obtain ⟨call, ret⟩ := label
    cases call <;> exact hkeeps
  obtain ⟨hs', hrep⟩ := h.ranked_step monotone_id ⟨hs.toSound, hs.order⟩ hranks taken
  exact ⟨⟨hs'.toSound, hs'.order⟩, hrep⟩

/-- Every run that keeps the order reaches an ordered sequence. -/
theorem exists_ordered {guard : BliveQlist → QlistCall × QlistRet → Prop}
    (hkeeps : ∀ q label, guard q label → KeepsOrder q label)
    {history : List (QlistCall × QlistRet)} (run : qlistSystem.Run guard history q) :
    ∃ s, Represents q s ∧ s.Ordered := by
  refine System.Run.invariant (I := fun _ q => ∃ s, Represents q s ∧ s.Ordered) ?_ ?_ run
  · intro q hinit
    exact ⟨⟨[], none⟩, eq_emptyQlist_of_init hinit ▸ emptyQlist_represents,
      ⟨by simp [Sequence.line], by simp⟩, List.Pairwise.nil⟩
  · rintro _ q label q' - ⟨s, hrep, hs⟩ hallowed taken
    obtain ⟨hs', hrep'⟩ := hrep.ordered_step hs (hkeeps _ _ hallowed) taken
    exact ⟨_, hrep', hs'⟩

/-- Queue order: nobody with a lower weight stands in front of somebody with a
higher one, as long as every refresh brings a weight that fits. -/
theorem traversal_nonIncreasing {history : List (QlistCall × QlistRet)}
    (run : qlistSystem.Run KeepsOrder history q) :
    ∃ line, traversal q false = some line ∧ NonIncreasing Pair.weight line := by
  obtain ⟨s, hrep, hs⟩ := exists_ordered (fun _ _ h => h) run
  exact ⟨s.line, hrep.traversal_eq_line hs.toSound,
    Sequence.nonIncreasing_line_iff.mpr hs.order⟩

/-- The data of a user of a given weight. -/
def ofWeight (w : UInt32) : QlistUnitData := { QlistUnitData.zero with weight := w }

/-- A refresh that fits: the queue of weights 5, 1 becomes 5, 3. -/
theorem traversal_nonIncreasing_of_fitting_refresh :
    ∃ history q, qlistSystem.Run KeepsOrder history q ∧
      traversal q false = some [(1, ofWeight 5), (2, ofWeight 3)] ∧
      ∃ line, traversal q false = some line ∧ NonIncreasing Pair.weight line := by
  obtain ⟨history, q, run, htest⟩ := exists_run KeepsOrder
    [.appendUpdate 1 (ofWeight 5) (some 0), .appendUpdate 2 (ofWeight 1) (some 1),
      .appendUpdate 2 (ofWeight 3) none]
    (fun r => traversal r.2 false = some [(1, ofWeight 5), (2, ofWeight 3)])
    (by decide +kernel)
  exact ⟨history, q, run, by simpa using htest, traversal_nonIncreasing run⟩

/-- A refresh that does not fit: the queue of weights 5, 1 becomes 5, 9. -/
theorem exists_run_not_nonIncreasing :
    ¬ ∀ history q, qlistSystem.Trace history q →
      ∃ line, traversal q false = some line ∧ NonIncreasing Pair.weight line := by
  intro hevery
  obtain ⟨history, q, run, htest⟩ := exists_run System.anyStep
    [.appendUpdate 1 (ofWeight 5) (some 0), .appendUpdate 2 (ofWeight 1) (some 1),
      .appendUpdate 2 (ofWeight 9) none]
    (fun r => traversal r.2 false = some [(1, ofWeight 5), (2, ofWeight 9)])
    (by decide +kernel)
  obtain ⟨line, hline, hord⟩ := hevery history q run
  obtain rfl : [(1, ofWeight 5), (2, ofWeight 9)] = line := by
    simpa [of_decide_eq_true htest] using hline
  exact absurd hord (by decide)

end BliveQueue.QList
