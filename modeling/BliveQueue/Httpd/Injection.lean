/-
# Injected text

What a callback prints stays in the buffer while the labels behind its own are searched
for, and behind the end of the file it is searched for all labels once more. Two choices
of the printed texts therefore fire the same callbacks for the same lines exactly if no
label stands behind the first one in a line, and the line that is searched again holds no
label; labels that no callback can print do not count.
-/

import BliveQueue.Httpd.Firing
import BliveQueue.Httpd.Response

namespace BliveQueue.Httpd

open BliveQueue.Math BliveQueue.Math.CharBuffer BliveQueue.Math.Lines
open BliveQueue.Utils BliveQueue.Utils.Httpd

variable {choice choice' : ℕ → List UInt8} {i n n' : ℕ} {label s s' o cur cur' : List UInt8}
  {labels front back : List (List UInt8)} {handler handler' : HttpdHandler (List ℕ)}
  {files : HttpFile → Option (List UInt8)} {file used : HttpFile} {template : List UInt8}

/-- The callbacks that are fired do not depend on what they print: for any two choices of
their texts the logs on every connection are the same. On a connection that breaks at the
write for some line, this is the log up to this line. -/
def SameFirings (files : HttpFile → Option (List UInt8)) (file : HttpFile)
    (labels : List (List UInt8)) : Prop :=
  ∀ (fd : Connection) (choice choice' : ℕ → List UInt8) (handler handler' : HttpdHandler (List ℕ)),
    Scripted choice labels handler → Scripted choice' labels handler' →
      (httpSendfile files fd file handler []).map (fun r => r.2.2) =
        (httpSendfile files fd file handler' []).map fun r => r.2.2

/-- A label that some text a callback can print contains and some does not. -/
def Trigger (label : List UInt8) : Prop := label ≠ [] ∧ Fits label

instance (label : List UInt8) : Decidable (Trigger label) :=
  inferInstanceAs (Decidable (label ≠ [] ∧ 0 ∉ label ∧ label.length < dataSize))

/-- The labels behind the first one that a text contains. -/
def behindFirst (labels : List (List UInt8)) (s : List UInt8) : List (List UInt8) :=
  (labels.dropWhile fun label => ¬ label <:+: s).tail

/-- The texts of the template that are searched. -/
def searched (template : List UInt8) : List (List UInt8) :=
  if template = [] then [[]] else (filePieces template).map text

/-- The end of the file is met behind the last line, so that what is in the buffer then is
searched again. -/
def SearchedAgain (template : List UInt8) : Prop :=
  ∃ piece ∈ (filePieces template).getLast?, ¬ Short piece

instance (template : List UInt8) : Decidable (SearchedAgain template) :=
  inferInstanceAs (Decidable (∃ piece ∈ (filePieces template).getLast?, ¬ Short piece))

/-- No printed text is searched for a label that it may contain or not. -/
structure NeverRetriggers (labels : List (List UInt8)) (template : List UInt8) : Prop where
  behind : ∀ s ∈ searched template, ∀ label ∈ behindFirst labels s, ¬ Trigger label
  last : SearchedAgain template → ∀ s ∈ (searched template).getLast?,
    (∃ label ∈ labels, label <:+: s) → ∀ label ∈ labels, ¬ Trigger label

/-! ## Enough -/

/-- A label that is no trigger is contained in every printed text, or in none. -/
theorem eq_nil_of_contained (h : ¬ Trigger label) (hs : Fits s) (hsub : label <:+: s) :
    label = [] := by
  apply Classical.byContradiction
  intro hne
  apply h
  refine ⟨hne, fun hzero => hs.1 (hsub.subset hzero), ?_⟩
  exact Nat.lt_of_le_of_lt hsub.length_le hs.2

/-- Labels that are no triggers are fired alike by all texts. -/
theorem fired_of_quiet (hquiet : ∀ label ∈ labels, ¬ Trigger label) (hfits : ∀ n, Fits (choice n))
    (hfits' : ∀ n, Fits (choice' n)) (hs : Fits s) (hs' : Fits s') (i n n' : ℕ) :
    (injectText choice i labels s n).2 = (injectText choice' i labels s' n').2 := by
  induction labels generalizing i s s' n n' with
  | nil => rfl
  | cons label labels ih =>
      rw [List.forall_mem_cons] at hquiet
      have hiff : label <:+: s ↔ label <:+: s' := by
        constructor
        · intro hsub
          rw [eq_nil_of_contained hquiet.1 hs hsub]
          exact List.nil_infix
        · intro hsub
          rw [eq_nil_of_contained hquiet.1 hs' hsub]
          exact List.nil_infix
      rw [injectText, injectText]
      by_cases hlabel : label <:+: s
      · rw [if_pos hlabel, if_pos (hiff.mp hlabel)]
        exact congrArg (i :: ·) (ih hquiet.2 (hfits n) (hfits' n') (i + 1) (n + 1) (n' + 1))
      · rw [if_neg hlabel, if_neg (fun h => hlabel (hiff.mpr h))]
        exact ih hquiet.2 hs hs' (i + 1) n n'

/-- A text fires the same labels for all choices, if there is no trigger behind the first of
them. -/
theorem fired_of_behindFirst (h : ∀ label ∈ behindFirst labels s, ¬ Trigger label)
    (hfits : ∀ n, Fits (choice n)) (hfits' : ∀ n, Fits (choice' n)) (i n n' : ℕ) :
    (injectText choice i labels s n).2 = (injectText choice' i labels s n').2 := by
  induction labels generalizing i n n' with
  | nil => rfl
  | cons label labels ih =>
      rw [injectText, injectText]
      by_cases hlabel : label <:+: s
      · have hquiet : ∀ other ∈ labels, ¬ Trigger other := by
          simpa [behindFirst, List.dropWhile_cons, hlabel] using h
        rw [if_pos hlabel, if_pos hlabel]
        exact congrArg (i :: ·)
          (fired_of_quiet hquiet hfits hfits' (hfits n) (hfits' n') (i + 1) (n + 1) (n' + 1))
      · have hrest : ∀ other ∈ behindFirst labels s, ¬ Trigger other := by
          simpa [behindFirst, List.dropWhile_cons, hlabel] using h
        rw [if_neg hlabel, if_neg hlabel]
        exact ih hrest (i + 1) n n'

/-- Two texts that fire the same labels if they are searched again. -/
structure Settled (labels : List (List UInt8)) (cur cur' : List UInt8) : Prop where
  fits : Fits cur
  fits' : Fits cur'
  alike : (∀ label ∈ labels, ¬ Trigger label) ∨
    cur = cur' ∧ ∀ label ∈ behindFirst labels cur, ¬ Trigger label

theorem Settled.fired_eq (h : Settled labels cur cur') (hfits : ∀ n, Fits (choice n))
    (hfits' : ∀ n, Fits (choice' n)) (n n' : ℕ) :
    (injectText choice 0 labels cur n).2 = (injectText choice' 0 labels cur' n').2 := by
  rcases h.alike with hquiet | ⟨rfl, hbehind⟩
  · exact fired_of_quiet hquiet hfits hfits' h.fits h.fits' 0 n n'
  · exact fired_of_behindFirst hbehind hfits hfits' 0 n n'

/-- What two turns leave of a text that may be searched again. -/
theorem settled_injectText (hs : Fits s) (hbehind : ∀ label ∈ behindFirst labels s, ¬ Trigger label)
    (hlast : (∃ label ∈ labels, label <:+: s) → ∀ label ∈ labels, ¬ Trigger label)
    (hfits : ∀ n, Fits (choice n)) (hfits' : ∀ n, Fits (choice' n)) (n n' : ℕ) :
    Settled labels (injectText choice 0 labels s n).1 (injectText choice' 0 labels s n').1 := by
  refine ⟨fits_injectText hfits hs, fits_injectText hfits' hs, ?_⟩
  by_cases hlabel : ∃ label ∈ labels, label <:+: s
  · exact Or.inl (hlast hlabel)
  · have hplain : ∀ label ∈ labels, ¬ label <:+: s := by
      intro label hmem hsub
      exact hlabel ⟨label, hmem, hsub⟩
    rw [injectText_of_plain hplain, injectText_of_plain hplain]
    exact Or.inr ⟨rfl, hbehind⟩

/-- The turns for some texts of a template, and perhaps one more for what the last leaves. -/
theorem turnFires_congr {texts : List (List UInt8)} {again : Prop} [Decidable again]
    (hfits : ∀ n, Fits (choice n)) (hfits' : ∀ n, Fits (choice' n)) (htexts : ∀ s ∈ texts, Fits s)
    (hbehind : ∀ s ∈ texts, ∀ label ∈ behindFirst labels s, ¬ Trigger label)
    (hstart : again → texts = [] → Settled labels cur cur')
    (hlast : again → ∀ s ∈ texts.getLast?, (∃ label ∈ labels, label <:+: s) →
      ∀ label ∈ labels, ¬ Trigger label) (n n' : ℕ) :
    turnFires labels choice (texts.map some ++ if again then [none] else []) cur n =
      turnFires labels choice' (texts.map some ++ if again then [none] else []) cur' n' := by
  induction texts generalizing cur cur' n n' with
  | nil =>
      by_cases hagain : again
      · have hsettled := hstart hagain rfl
        simpa [hagain, turnFires] using hsettled.fired_eq hfits hfits' n n'
      · simp [hagain, turnFires]
  | cons s texts ih =>
      rw [List.forall_mem_cons] at htexts hbehind
      rw [List.map_cons, List.cons_append, turnFires, turnFires, Option.getD_some]
      congr 1
      · exact fired_of_behindFirst hbehind.1 hfits hfits' 0 n n'
      · apply ih htexts.2 hbehind.2
        · intro hagain hnil
          apply settled_injectText htexts.1 hbehind.1 ?_ hfits hfits'
          exact hlast hagain s (by rw [hnil]; rfl)
        · intro hagain last hmem
          apply hlast hagain last
          cases texts with
          | nil => cases hmem
          | cons next texts =>
              rw [List.getLast?_cons_cons]
              exact hmem

theorem starts_eq (template : List UInt8) :
    starts template = ((filePieces template).map text).map some ++
      if ∀ piece ∈ (filePieces template).getLast?, ¬ Short piece then [none] else [] := by
  rw [starts, List.map_map]
  rfl

theorem NeverRetriggers.turnFires_eq (h : NeverRetriggers labels template)
    (hfits : ∀ n, Fits (choice n)) (hfits' : ∀ n, Fits (choice' n)) :
    turnFires labels choice (starts template) [] 0 =
      turnFires labels choice' (starts template) [] 0 := by
  rw [starts_eq]
  by_cases hempty : template = []
  · have hbehind := h.behind [] (by simp [searched, hempty])
    apply turnFires_congr hfits hfits'
    · simp [hempty, filePieces, pieces]
    · simp [hempty, filePieces, pieces]
    · intro _ _
      exact ⟨⟨by simp, by decide⟩, ⟨by simp, by decide⟩, Or.inr ⟨rfl, hbehind⟩⟩
    · simp [hempty, filePieces, pieces]
  · have hsearched : searched template = (filePieces template).map text := if_neg hempty
    apply turnFires_congr hfits hfits'
    · intro s hs
      obtain ⟨piece, hpiece, rfl⟩ := List.mem_map.mp hs
      refine ⟨zero_notMem_text piece, ?_⟩
      exact Nat.lt_of_le_of_lt (List.takeWhile_prefix _).length_le
        (length_lt_of_mem_filePieces hpiece)
    · rw [← hsearched]
      exact h.behind
    · intro _ hnil
      exact absurd (List.map_eq_nil_iff.mp hnil) (filePieces_ne_nil hempty)
    · intro hagain s hs
      rw [← hsearched] at hs
      apply h.last ?_ s hs
      rw [hsearched, List.getLast?_map] at hs
      obtain ⟨piece, hpiece, -⟩ := Option.map_eq_some_iff.mp hs
      exact ⟨piece, hpiece, hagain piece hpiece⟩

/-! ## Necessary -/

/-- Units for some labels whose callbacks print the texts of `choice` and log their places. -/
def scriptedUnits (choice : ℕ → List UInt8) :
    ℕ → List (List UInt8) → List (HttpInjectUnit (List ℕ))
  | _, [] => []
  | i, label :: labels =>
    ⟨label, fun dst log =>
      (store dst 0 (choice log.length ++ [0])).map fun dst => (dst, log ++ [i])⟩ ::
      scriptedUnits choice (i + 1) labels

theorem map_scriptedUnits (choice : ℕ → List UInt8) (i : ℕ) (labels : List (List UInt8)) :
    (scriptedUnits choice i labels).map HttpInjectUnit.htmlLabelName = labels := by
  induction labels generalizing i with
  | nil => rfl
  | cons label labels ih => rw [scriptedUnits, List.map_cons, ih]

theorem scripts_scriptedUnits (hfits : ∀ n, Fits (choice n)) (i : ℕ)
    (labels : List (List UInt8)) : Scripts choice i (scriptedUnits choice i labels) := by
  induction labels generalizing i with
  | nil => trivial
  | cons label labels ih =>
      refine ⟨?_, ih (i + 1)⟩
      intro log dst hsize _
      obtain ⟨hzero, hlength⟩ := hfits log.length
      obtain ⟨dst', hstore, hholds⟩ := exists_store_string hzero (hsize ▸ hlength)
      exact ⟨dst', by simp [hstore], (length_store hstore).trans hsize, hholds⟩

/-- Every choice of fitting texts is made by the callbacks of some handler. -/
theorem exists_scripted (hroom : labels.length ≤ maxInjectionNum) (hfits : ∀ n, Fits (choice n)) :
    ∃ handler, Scripted choice labels handler := by
  have hcapacity : (scriptedUnits choice 0 labels).length ≤ maxInjectionNum := by
    rw [← List.length_map HttpInjectUnit.htmlLabelName, map_scriptedUnits]
    exact hroom
  exact ⟨⟨_, hcapacity⟩, map_scriptedUnits choice 0 labels, hfits,
    scripts_scriptedUnits hfits 0 labels⟩

/-- A connection that breaks at some write. -/
def breaksAt (k : ℕ) : Connection := ⟨[], fun n => n < k⟩

theorem firedUntil_breaksAt (n k : ℕ) (fires : List (List ℕ)) :
    firedUntil (breaksAt (n + k)).succeeds n fires = (fires.take (k + 1)).flatten := by
  induction fires generalizing n k with
  | nil => simp [firedUntil]
  | cons fired fires ih =>
      rw [firedUntil, List.take_succ_cons, List.flatten_cons]
      cases k with
      | zero => simp [breaksAt]
      | succ k =>
          have hlt : (breaksAt (n + (k + 1))).succeeds n = true := by simp [breaksAt]
          rw [if_pos hlt, ← ih (n + 1) k, Nat.add_right_comm n 1 k, Nat.add_assoc]

theorem writeAll_breaksAt (used : HttpFile) (k : ℕ) :
    writeAll (headerBlocks used) (breaksAt (4 + k)) =
      (true, (breaksAt (4 + k)).after (headerBlocks used)) := by
  apply writeAll_eq
  intro n hn
  have hlt : 0 + n < 4 + k := by
    rw [Nat.zero_add]
    exact Nat.lt_add_right k hn
  exact decide_eq_true hlt

/-- Lists with the same concatenations of their fronts have the same items. -/
theorem eq_of_flatten_take {l l' : List (List ℕ)} {k : ℕ} {a b : List ℕ}
    (h : ∀ k, (l.take (k + 1)).flatten = (l'.take (k + 1)).flatten)
    (ha : l[k]? = some a) (hb : l'[k]? = some b) : a = b := by
  have hfront : (l.take k).flatten = (l'.take k).flatten := by
    cases k with
    | zero => simp
    | succ k => exact h k
  have hnext := h k
  rw [List.take_add_one, List.take_add_one, ha, hb, List.flatten_append, List.flatten_append,
    hfront] at hnext
  simpa using hnext

/-- The firings of one turn are the same for any two texts that are printed throughout. -/
theorem SameFirings.fired_eq (h : SameFirings files file labels)
    (hopen : openFile files file = some (used, template))
    (hroom : labels.length ≤ maxInjectionNum) {o' : List UInt8} (ho : Fits o) (ho' : Fits o')
    {k : ℕ} {a b : List ℕ}
    (ha : (turnFires labels (fun _ => o) (starts template) [] 0)[k]? = some a)
    (hb : (turnFires labels (fun _ => o') (starts template) [] 0)[k]? = some b) : a = b := by
  have hfits : ∀ n : ℕ, Fits ((fun _ => o) n) := fun _ => ho
  have hfits' : ∀ n : ℕ, Fits ((fun _ => o') n) := fun _ => ho'
  obtain ⟨handler, hscripted⟩ := exists_scripted hroom hfits
  obtain ⟨handler', hscripted'⟩ := exists_scripted hroom hfits'
  apply eq_of_flatten_take ?_ ha hb
  intro k
  have hlogs := h (breaksAt (4 + k)) _ _ handler handler' hscripted hscripted'
  rw [hscripted.httpSendfile_log hopen, hscripted'.httpSendfile_log hopen,
    writeAll_breaksAt] at hlogs
  have hwritten : ((breaksAt (4 + k)).after (headerBlocks used)).written.length = 4 := rfl
  have hsucceeds : ((breaksAt (4 + k)).after (headerBlocks used)).succeeds =
      (breaksAt (4 + k)).succeeds := rfl
  simpa only [↓reduceIte, hwritten, hsucceeds, firedUntil_breaksAt, Option.some.injEq] using hlogs

/-! ### One text that is printed throughout -/

theorem injectText_const (o : List UInt8) (i : ℕ) (labels : List (List UInt8)) (s : List UInt8)
    (n n' : ℕ) :
    injectText (fun _ => o) i labels s n = injectText (fun _ => o) i labels s n' := by
  induction labels generalizing i s n n' with
  | nil => rfl
  | cons label labels ih =>
      rw [injectText, injectText, ih (i + 1) o (n + 1) (n' + 1), ih (i + 1) s n n']

/-- A text is replaced if it contains a label. -/
theorem text_injectText_const (o : List UInt8) (i : ℕ) (labels : List (List UInt8))
    (s : List UInt8) (n : ℕ) :
    (injectText (fun _ => o) i labels s n).1 =
      if ∃ label ∈ labels, label <:+: s then o else s := by
  induction labels generalizing i s n with
  | nil => simp [injectText]
  | cons label labels ih =>
      rw [injectText]
      by_cases hlabel : label <:+: s
      · simp [hlabel, ih]
      · simp [hlabel, ih]

/-- A label is fired if it is in the text, or in the one that replaces the text. -/
theorem mem_injectText_const {o : List UInt8} :
    front.length ∈ (injectText (fun _ => o) 0 (front ++ label :: back) s 0).2 ↔
      label <:+: if ∃ other ∈ front, other <:+: s then o else s := by
  rw [← text_injectText_const o 0 front s 0, ← mem_injectText_iff, Nat.zero_add]

theorem turnFires_const (o : List UInt8) (starts : List (Option (List UInt8)))
    (cur : List UInt8) (n n' : ℕ) :
    turnFires labels (fun _ => o) starts cur n = turnFires labels (fun _ => o) starts cur n' := by
  induction starts generalizing cur n n' with
  | nil => rfl
  | cons start starts ih =>
      rw [turnFires, turnFires, injectText_const o 0 labels (start.getD cur) n n']
      congr 1
      exact ih _ _ _

/-- The turns of some texts, whatever was in the buffer before. -/
theorem turnFires_append (o : List UInt8) (front later : List (Option (List UInt8)))
    (s cur : List UInt8) (n : ℕ) :
    turnFires labels (fun _ => o) (front ++ some s :: later) cur n =
      turnFires labels (fun _ => o) front cur n ++
        turnFires labels (fun _ => o) (some s :: later) [] 0 := by
  induction front generalizing cur n with
  | nil =>
      rw [List.nil_append, turnFires_const o _ cur n 0]
      rfl
  | cons start front ih =>
      rw [List.cons_append, turnFires, ih]
      rfl

theorem length_turnFires (choice : ℕ → List UInt8) (starts : List (Option (List UInt8)))
    (cur : List UInt8) (n : ℕ) :
    (turnFires labels choice starts cur n).length = starts.length := by
  induction starts generalizing cur n with
  | nil => rfl
  | cons start starts ih => rw [turnFires, List.length_cons, ih, List.length_cons]

/-- The turn of a text of the template. -/
theorem exists_turn (hs : s ∈ searched template) :
    ∃ k : ℕ, ∀ o, (turnFires labels (fun _ => o) (starts template) [] 0)[k]? =
      some (injectText (fun _ => o) 0 labels s 0).2 := by
  by_cases hempty : template = []
  · rw [searched, if_pos hempty, List.mem_singleton] at hs
    rw [hempty, starts_nil, hs]
    exact ⟨0, fun o => rfl⟩
  · rw [searched, if_neg hempty] at hs
    obtain ⟨front, back, hsplit⟩ := List.append_of_mem hs
    refine ⟨front.length, ?_⟩
    intro o
    rw [starts_eq, hsplit, List.map_append, List.map_cons, List.append_assoc, List.cons_append,
      turnFires_append, List.getElem?_append_right (by simp [length_turnFires]),
      length_turnFires, List.length_map, Nat.sub_self]
    rfl

/-- The turn behind the end of the file, with what the last line has left. -/
theorem exists_last_turn (hagain : SearchedAgain template)
    (hs : s ∈ (searched template).getLast?) :
    ∃ k : ℕ, ∀ o, (turnFires labels (fun _ => o) (starts template) [] 0)[k]? =
      some (injectText (fun _ => o) 0 labels (injectText (fun _ => o) 0 labels s 0).1 0).2 := by
  obtain ⟨piece, hpiece, hopen⟩ := hagain
  have hempty : template ≠ [] := by
    intro hnil
    rw [hnil] at hpiece
    cases hpiece
  rw [searched, if_neg hempty] at hs
  obtain ⟨front, hsplit⟩ := List.getLast?_eq_some_iff.mp hs
  refine ⟨front.length + 1, ?_⟩
  intro o
  have hlast : ∀ piece ∈ (filePieces template).getLast?, ¬ Short piece := by
    intro other hother
    rwa [← Option.some.inj (hpiece.symm.trans hother)]
  rw [starts_eq, hsplit, if_pos hlast, List.map_append, List.map_singleton, List.append_assoc,
    List.singleton_append, turnFires_append,
    List.getElem?_append_right (by simp [length_turnFires]), length_turnFires, List.length_map,
    Nat.add_sub_cancel_left, turnFires, turnFires, List.getElem?_cons_succ, List.getElem?_cons_zero,
    injectText_const o 0 labels _ _ 0]
  rfl

/-! ## Exactly -/

/-- A label behind the first one in a text has a place behind a label that is fired. -/
theorem exists_split_of_behindFirst (h : label ∈ behindFirst labels s) :
    ∃ front back, labels = front ++ label :: back ∧ ∃ other ∈ front, other <:+: s := by
  induction labels with
  | nil => cases h
  | cons first labels ih =>
      by_cases hfirst : first <:+: s
      · have hmem : label ∈ labels := by
          simpa [behindFirst, List.dropWhile_cons, hfirst] using h
        obtain ⟨front, back, rfl⟩ := List.append_of_mem hmem
        exact ⟨first :: front, back, rfl, first, List.mem_cons_self, hfirst⟩
      · have hmem : label ∈ behindFirst labels s := by
          simpa [behindFirst, List.dropWhile_cons, hfirst] using h
        obtain ⟨front, back, rfl, other, hother, hsub⟩ := ih hmem
        exact ⟨first :: front, back, rfl, other, List.mem_cons_of_mem first hother, hsub⟩

theorem fits_nil : Fits [] := ⟨by simp, by decide⟩

/-- A trigger behind a fired label tells the text that is itself from the empty one. -/
theorem SameFirings.behind (h : SameFirings files file labels)
    (hopen : openFile files file = some (used, template))
    (hroom : labels.length ≤ maxInjectionNum) (hs : s ∈ searched template)
    (hlabel : label ∈ behindFirst labels s) : ¬ Trigger label := by
  intro htrigger
  obtain ⟨hne, hfits⟩ := htrigger
  obtain ⟨front, back, rfl, hfired⟩ := exists_split_of_behindFirst hlabel
  obtain ⟨k, hturn⟩ := exists_turn hs
  have hsame := h.fired_eq hopen hroom hfits fits_nil (hturn label) (hturn [])
  have hmem : front.length ∈
      (injectText (fun _ => label) 0 (front ++ label :: back) s 0).2 := by
    rw [mem_injectText_const, if_pos hfired]
  rw [hsame, mem_injectText_const, if_pos hfired, List.infix_nil] at hmem
  exact hne hmem

/-- So does a trigger for the text that is searched again. -/
theorem SameFirings.last (h : SameFirings files file labels)
    (hopen : openFile files file = some (used, template))
    (hroom : labels.length ≤ maxInjectionNum) (hagain : SearchedAgain template)
    (hs : s ∈ (searched template).getLast?) (hfired : ∃ other ∈ labels, other <:+: s)
    (hlabel : label ∈ labels) : ¬ Trigger label := by
  intro htrigger
  obtain ⟨hne, hfits⟩ := htrigger
  obtain ⟨k, hturn⟩ := exists_last_turn hagain hs
  have hsame := h.fired_eq hopen hroom hfits fits_nil (hturn label) (hturn [])
  rw [text_injectText_const, if_pos hfired, text_injectText_const, if_pos hfired] at hsame
  obtain ⟨front, back, rfl⟩ := List.append_of_mem hlabel
  have hmem : front.length ∈
      (injectText (fun _ => label) 0 (front ++ label :: back) label 0).2 := by
    rw [mem_injectText_const, ite_self]
  rw [hsame, mem_injectText_const, ite_self, List.infix_nil] at hmem
  exact hne hmem

/-- Injected text is never treated as template exactly if the labels and the template never
let a printed text be searched for a label that it may contain or not. -/
theorem same_firings_iff (hopen : openFile files file = some (used, template))
    (hroom : labels.length ≤ maxInjectionNum) :
    SameFirings files file labels ↔ NeverRetriggers labels template := by
  constructor
  · intro hsame
    constructor
    · intro s hs label hlabel
      exact hsame.behind hopen hroom hs hlabel
    · intro hagain s hs hfired label hlabel
      exact hsame.last hopen hroom hagain hs hfired hlabel
  · intro hnever fd choice choice' handler handler' hscripted hscripted'
    rw [hscripted.httpSendfile_log hopen, hscripted'.httpSendfile_log hopen,
      hnever.turnFires_eq hscripted.fits hscripted'.fits]

/-! ## Two pages -/

/-- The labels that `callbacks_init` registers. -/
def registeredLabels : List (List UInt8) :=
  [literal "__refresh_injection__", literal "__queuelist_injection__"]

/-- The row of a user whose nickname is a label. -/
def labelRow : List UInt8 :=
  literal "<p><font color=\"#000000\">__refresh_injection__</font></p>\r\n"

theorem labelRow_fits : Fits labelRow := by
  unfold Fits
  decide +kernel

/-- A page like the shipped one, without the line for the refresh. -/
def queuePage : List UInt8 := literal "<HTML>\n<__queuelist_injection__>\n</HTML>"

/-- On this page no nickname fires anything. -/
theorem same_firings_of_page : SameFirings (fun _ => some queuePage) .home registeredLabels := by
  have hopen : openFile (fun _ => some queuePage) .home = some (.home, queuePage) := rfl
  apply (same_firings_iff hopen (by decide)).mpr
  constructor
  · decide +kernel
  · intro hagain
    have hshort : ¬ SearchedAgain queuePage := by decide +kernel
    exact absurd hagain hshort

/-- A page whose last line has the label of the queue and a newline: behind the end of the
file a nickname fires the refresh. -/
theorem exists_nickname_fires :
    ∃ handler handler',
      Scripted (fun _ => []) registeredLabels handler ∧
      Scripted (fun _ => labelRow) registeredLabels handler' ∧
      (httpSendfile (fun _ => some (literal "<__queuelist_injection__>\n")) openConnection .home
        handler []).map (fun r => r.2.2) = some [1] ∧
      (httpSendfile (fun _ => some (literal "<__queuelist_injection__>\n")) openConnection .home
        handler' []).map (fun r => r.2.2) = some [1, 0] ∧
      ¬ SameFirings (fun _ => some (literal "<__queuelist_injection__>\n")) .home
        registeredLabels := by
  have hopen : openFile (fun _ => some (literal "<__queuelist_injection__>\n")) .home =
      some (.home, literal "<__queuelist_injection__>\n") := rfl
  have hroom : registeredLabels.length ≤ maxInjectionNum := by decide
  have hempty : ∀ n : ℕ, Fits ((fun _ => []) n) := fun _ => fits_nil
  have hrow : ∀ n : ℕ, Fits ((fun _ => labelRow) n) := fun _ => labelRow_fits
  obtain ⟨handler, hscripted⟩ := exists_scripted hroom hempty
  obtain ⟨handler', hscripted'⟩ := exists_scripted hroom hrow
  have hlog := hscripted.httpSendfile_log hopen openConnection
  have hlog' := hscripted'.httpSendfile_log hopen openConnection
  rw [openConnection_allSucceed.writeAll_eq] at hlog hlog'
  have hone := hlog.trans (show _ = some [1] by decide +kernel)
  have htwo := hlog'.trans (show _ = some [1, 0] by decide +kernel)
  refine ⟨handler, handler', hscripted, hscripted', hone, htwo, ?_⟩
  intro hsame
  have heq := hsame openConnection _ _ handler handler' hscripted hscripted'
  rw [hone, htwo] at heq
  cases heq

end BliveQueue.Httpd
