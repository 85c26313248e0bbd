import Abacus.Proofs.Token.Segmentation
import Abacus.Token

/-!
# What is handed over

However the actions of a scan and its reader take turns, the reader is given the tokens of the line
one after the other, and is told that no more will come only when it has been given the last one. A
reader that has lost interest goes on taking tokens all the same until it is told, so nothing here
depends on what it does with them.

The invariant (`Sound`) accounts for every token of the line: it has been taken, or it waits in the
slot, or the scan has still to hand it out. Each action moves one token on by one place, or closes
the slot, or tells the reader. So the actions that are left can be counted (`work`), and since one
of them is always possible, no order of actions gets stuck or goes on without an end.
-/

namespace Abacus.Token

/-! ## The rest of a scan -/

namespace Cursor

/-- The tokens that a scan has still to hand out. -/
def remaining (c : Cursor) : List Token := if c.finished then [] else scanFrom c.position c.rest

theorem remaining_start (line : Bytes) : (start line).remaining = scan line := rfl

theorem remaining_of_next {c source : Cursor} {t : Token} (h : c.next = (some t, source)) :
    c.remaining = t :: source.remaining := by
  by_cases hc : c.finished = true
  · rw [next, if_pos hc] at h
    cases h
  have hc : c.finished = false := by simpa using hc
  rw [remaining, hc, if_neg Bool.false_ne_true]
  rcases hcut : lexeme? c.rest with _ | ⟨l, kind⟩
  · rw [next_of_none hc hcut] at h
    cases h
    exact scanFrom_of_none hcut
  · obtain ⟨rest, hrest⟩ := prefix_of_lexeme? hcut
    rw [← hrest] at hcut
    rw [next_of_lexeme? hc hrest.symm hcut] at h
    cases h
    rw [← hrest]
    exact scanFrom_of_lexeme? hcut

theorem exists_next {c : Cursor} (hc : c.finished = false) :
    ∃ t source, c.next = (some t, source) := by
  rcases hcut : lexeme? c.rest with _ | ⟨l, kind⟩
  · exact ⟨_, _, next_of_none hc hcut⟩
  · obtain ⟨rest, hrest⟩ := prefix_of_lexeme? hcut
    exact ⟨_, _, next_of_lexeme? hc hrest.symm (hrest.symm ▸ hcut)⟩

end Cursor

namespace Handoff

/-! ## Single actions -/

theorem act?_cases {h h' : Handoff} {a : Action} (hact : h.act? a = some h') :
    (∃ t source, a = .send ∧ h.slot = none ∧ h.source.next = (some t, source)
        ∧ h' = { h with source := source, slot := some t })
      ∨ (a = .close ∧ h.source.finished = true ∧ h.closed = false
        ∧ h' = { h with closed := true })
      ∨ (∃ t, a = .receive ∧ h.slot = some t
        ∧ h' = { h with slot := none, received := h.received ++ [t] })
      ∨ (a = .receive ∧ h.slot = none ∧ h.closed = true ∧ h' = { h with told := true }) := by
  unfold act? at hact
  split at hact
  · split at hact
    · next t source hslot hnext =>
      cases hact
      exact .inl ⟨t, source, rfl, hslot, hnext, rfl⟩
    · cases hact
  · split at hact
    · next hclose =>
      cases hact
      obtain ⟨hfinished, hclosed⟩ := Bool.and_eq_true_iff.mp hclose
      exact .inr (.inl ⟨rfl, hfinished, by simpa using hclosed, rfl⟩)
    · cases hact
  · split at hact
    · next t hslot =>
      cases hact
      exact .inr (.inr (.inl ⟨t, rfl, hslot, rfl⟩))
    · next hslot =>
      split at hact
      · next hclosed =>
        cases hact
        exact .inr (.inr (.inr ⟨rfl, hslot, hclosed, rfl⟩))
      · cases hact

/-- Every token of the line is accounted for, the slot is closed behind the last of them, and the
reader is told when the slot is empty for good. -/
structure Sound (line : Bytes) (h : Handoff) : Prop where
  tokens : h.received ++ h.slot.toList ++ h.source.remaining = scan line
  finished : h.closed = true → h.source.finished = true
  closed : h.told = true → h.closed = true ∧ h.slot = none

theorem sound_start (line : Bytes) : Sound line (start line) := by
  refine ⟨?_, nofun, nofun⟩
  exact Cursor.remaining_start line

/-- An action keeps account of the tokens. -/
theorem Sound.act {line : Bytes} {h h' : Handoff} {a : Action} (hsound : Sound line h)
    (hact : h.act? a = some h') : Sound line h' := by
  obtain ⟨htokens, hfinished, hclosed⟩ := hsound
  rcases act?_cases hact with ⟨t, source, -, hslot, hnext, rfl⟩ | ⟨-, hfinal, hopen, rfl⟩
    | ⟨t, -, hslot, rfl⟩ | ⟨-, hslot, hshut, rfl⟩
  · rw [hslot, Cursor.remaining_of_next hnext] at htokens
    -- a scan behind which the slot is closed has nothing to send
    have hopen : h.closed ≠ true := by
      intro hshut
      rw [Cursor.next, if_pos (hfinished hshut)] at hnext
      cases hnext
    refine ⟨?_, fun hshut ↦ absurd hshut hopen, fun htold ↦ absurd (hclosed htold).1 hopen⟩
    simpa using htokens
  · refine ⟨htokens, fun _ ↦ hfinal, fun htold ↦ ⟨rfl, (hclosed htold).2⟩⟩
  · rw [hslot] at htokens
    refine ⟨?_, hfinished, fun htold ↦ ⟨(hclosed htold).1, rfl⟩⟩
    simpa using htokens
  · exact ⟨htokens, hfinished, fun _ ↦ ⟨hshut, hslot⟩⟩

/-- Behind a closed and empty slot there is no token left. -/
theorem Sound.received_eq {line : Bytes} {h : Handoff} (hsound : Sound line h)
    (hclosed : h.closed = true) (hslot : h.slot = none) : h.received = scan line := by
  have htokens := hsound.tokens
  rw [hslot, Cursor.remaining, if_pos (hsound.finished hclosed)] at htokens
  simpa using htokens

/-! ## What is left to do -/

/-- The actions that are left until the reader is told: every token that the scan has still to hand
out is sent and taken, a token in the slot is taken, the slot is closed, and the reader is told. -/
def work (h : Handoff) : Nat :=
  2 * h.source.remaining.length + h.slot.toList.length + (if h.closed then 0 else 1)
    + (if h.told then 0 else 1)

theorem work_start (line : Bytes) : (start line).work = 2 * (scan line).length + 2 := by
  rw [work, show (start line).source.remaining = scan line from rfl]
  rfl

/-- An action of which the reader has not been told the end is one of those that were left. -/
theorem work_act {h h' : Handoff} {a : Action} (hact : h.act? a = some h')
    (htold : h.told = false) : h'.work + 1 = h.work := by
  rcases act?_cases hact with ⟨t, source, -, hslot, hnext, rfl⟩ | ⟨-, -, hopen, rfl⟩
    | ⟨t, -, hslot, rfl⟩ | ⟨-, -, -, rfl⟩
  · simp only [work, hslot, Cursor.remaining_of_next hnext, List.length_cons, Option.toList_none,
      Option.toList_some, List.length_nil]
    omega
  · simp only [work, hopen, if_true, if_false, Bool.false_eq_true]
    omega
  · simp only [work, hslot, Option.toList_none, Option.toList_some, List.length_cons,
      List.length_nil]
    omega
  · simp only [work, htold, if_true, if_false, Bool.false_eq_true]

theorem told_of_act {h h' : Handoff} {a : Action} (hact : h.act? a = some h')
    (htold : h'.told = false) : h.told = false := by
  rcases act?_cases hact with ⟨_, _, -, -, -, rfl⟩ | ⟨-, -, -, rfl⟩ | ⟨_, -, -, rfl⟩
    | ⟨-, -, -, rfl⟩
  · exact htold
  · exact htold
  · exact htold
  · cases htold

/-- Some action is possible: a token in the slot can be taken, and beside an empty slot the scan can
send or close, or the reader can be told. -/
theorem exists_act (h : Handoff) : ∃ a h', h.act? a = some h' := by
  rcases hslot : h.slot with _ | t
  · by_cases hclosed : h.closed = true
    · exact ⟨.receive, { h with told := true }, by simp only [act?, hslot, if_pos hclosed]⟩
    have hclosed : h.closed = false := by simpa using hclosed
    by_cases hfinished : h.source.finished = true
    · exact ⟨.close, { h with closed := true }, by simp [act?, hfinished, hclosed]⟩
    · obtain ⟨t, source, hnext⟩ := Cursor.exists_next (c := h.source) (by simpa using hfinished)
      exact ⟨.send, { h with source := source, slot := some t },
        by simp only [act?, hslot, hnext]⟩
  · exact ⟨.receive, { h with slot := none, received := h.received ++ [t] },
      by simp only [act?, hslot]⟩

/-! ## Orders of actions -/

/-- The state behind some actions of the two sides, in the order that they are taken in, if each of
them was possible when its turn came. -/
def run? (h : Handoff) : List Action → Option Handoff
  | [] => some h
  | a :: actions => (h.act? a).bind fun h' ↦ h'.run? actions

variable {line : Bytes} {h h' : Handoff} {actions : List Action}

theorem run?_cons {a : Action} (hrun : h.run? (a :: actions) = some h') :
    ∃ h₁, h.act? a = some h₁ ∧ h₁.run? actions = some h' := Option.bind_eq_some_iff.mp hrun

theorem Sound.run (hsound : Sound line h) (hrun : h.run? actions = some h') : Sound line h' := by
  induction actions generalizing h with
  | nil =>
    obtain rfl := Option.some.inj hrun
    exact hsound
  | cons a actions ih =>
    obtain ⟨h₁, hact, hrun⟩ := run?_cons hrun
    exact ih (hsound.act hact) hrun

theorem count_send (hrun : h.run? actions = some h') :
    h.received.length + h.slot.toList.length + actions.count .send
      = h'.received.length + h'.slot.toList.length := by
  induction actions generalizing h with
  | nil =>
    obtain rfl := Option.some.inj hrun
    rfl
  | cons a actions ih =>
    obtain ⟨h₁, hact, hrun⟩ := run?_cons hrun
    rw [← ih hrun]
    rcases act?_cases hact with ⟨t, source, rfl, hslot, -, rfl⟩ | ⟨rfl, -, -, rfl⟩
      | ⟨t, rfl, hslot, rfl⟩ | ⟨rfl, -, -, rfl⟩
    · rw [List.count_cons_self, hslot]
      simp only [Option.toList_none, Option.toList_some, List.length_nil, List.length_cons]
      omega
    · rw [List.count_cons_of_ne (by decide)]
    · rw [List.count_cons_of_ne (by decide), hslot]
      simp
    · rw [List.count_cons_of_ne (by decide)]

/-- As long as the reader has not been told the end, each action leaves one less to do. -/
theorem length_add_work (hrun : h.run? actions = some h') (htold : h'.told = false) :
    actions.length + h'.work = h.work ∧ h.told = false := by
  induction actions generalizing h with
  | nil =>
    obtain rfl := Option.some.inj hrun
    exact ⟨Nat.zero_add _, htold⟩
  | cons a actions ih =>
    obtain ⟨h₁, hact, hrun⟩ := run?_cons hrun
    obtain ⟨hwork, htold₁⟩ := ih hrun
    have htold : h.told = false := told_of_act hact htold₁
    have hless := work_act hact htold
    refine ⟨?_, htold⟩
    rw [List.length_cons]
    omega

/-- **The tokens of the line arrive.** Take any order of actions in which each of them was possible.
The tokens that were sent are the first ones of the line, and at most one of them waits to be taken:
what the reader has is the beginning of the line's tokens, none lost, repeated or out of order. The
reader is told the end only when it has all of them. As long as the slot is not closed or the reader
not told, another action is possible that is one of finitely many left. -/
theorem received_of_run {actions : List Action} (hrun : (start line).run? actions = some h) :
    h.received ++ h.slot.toList = (scan line).take (actions.count .send)
      ∧ h.received.length ≤ actions.count .send ∧ actions.count .send ≤ h.received.length + 1
      ∧ h.received <+: scan line
      ∧ (∀ h', h.act? .receive = some h' → h.slot = none → h.received = scan line)
      ∧ (h.told = true → h.received = scan line)
      ∧ (h.closed = false ∨ h.told = false →
        (∃ a h', h.act? a = some h' ∧ h'.work < h.work)
          ∧ actions.length + h.work = 2 * (scan line).length + 2) := by
  have hsound : Sound line h := (sound_start line).run hrun
  have hsent : actions.count .send = (h.received ++ h.slot.toList).length := by
    rw [List.length_append, ← count_send hrun]
    exact (Nat.zero_add _).symm
  have hone : h.slot.toList.length ≤ 1 := by
    cases h.slot with
    | none => exact Nat.zero_le 1
    | some => exact Nat.le_refl 1
  rw [List.length_append] at hsent
  refine ⟨?_, by omega, by omega, ?_, ?_, ?_, ?_⟩
  · rw [hsent, ← List.length_append, ← hsound.tokens, List.take_left]
  · exact ⟨h.slot.toList ++ h.source.remaining, by rw [← List.append_assoc, hsound.tokens]⟩
  · intro h' hact hslot
    refine hsound.received_eq ?_ hslot
    by_contra hopen
    rw [act?, hslot] at hact
    exact absurd hact (by simp [hopen])
  · intro htold
    exact hsound.received_eq (hsound.closed htold).1 (hsound.closed htold).2
  · intro hunfinished
    have htold : h.told = false := by
      refine hunfinished.elim (fun hopen ↦ ?_) id
      by_contra htold
      rw [(hsound.closed (by simpa using htold)).1] at hopen
      cases hopen
    obtain ⟨a, h', hact⟩ := h.exists_act
    have hless := work_act hact htold
    refine ⟨⟨a, h', hact, by omega⟩, ?_⟩
    rw [← work_start]
    exact (length_add_work hrun htold).1

/-- A reader that stops at the first token while the scan is ahead of it, and then takes what is
left up to the stray character only to be told the end. -/
theorem received_of_run_stray :
    let line := utf8 "1 ?"
    let first : List Action := [.send, .receive, .send]
    let h : Handoff := ⟨⟨utf8 "?", 2, false⟩, some ⟨.space, utf8 " ", 1⟩, false,
      [⟨.number, utf8 "1", 0⟩], false⟩
    let rest : List Action := [.receive, .send, .receive, .close, .receive]
    let h' : Handoff := ⟨⟨utf8 "?", 2, true⟩, none, true,
      [⟨.number, utf8 "1", 0⟩, ⟨.space, utf8 " ", 1⟩, ⟨.stray, utf8 "?", 2⟩], true⟩
    (start line).run? first = some h ∧ h.received <+: scan line
      ∧ (∃ a h', h.act? a = some h' ∧ h'.work < h.work)
      ∧ first.length + h.work = 2 * (scan line).length + 2
      ∧ (start line).run? (first ++ rest) = some h' ∧ h'.received = scan line := by
  intro line first h rest h'
  have hfirst : (start line).run? first = some h := by decide +kernel
  have hall : (start line).run? (first ++ rest) = some h' := by decide +kernel
  obtain ⟨-, -, -, hprefix, -, -, hleft⟩ := received_of_run hfirst
  obtain ⟨hact, hwork⟩ := hleft (.inl rfl)
  obtain ⟨-, -, -, -, -, htold, -⟩ := received_of_run hall
  exact ⟨hfirst, hprefix, hact, hwork, hall, htold rfl⟩

end Handoff

end Abacus.Token
