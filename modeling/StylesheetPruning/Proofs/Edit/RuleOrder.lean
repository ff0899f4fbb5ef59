import StylesheetPruning.Proofs.Edit.TableOrder

/-!
# Where the order of substitutions shows

The substitutions of the table are meant to give one result in every order.
They do so unless a mark and a plus sign contend for a space: in `a, + b` the
space behind the comma is also the space in front of the plus sign, and in
`a + (b` the space behind the plus sign is also the one in front of the
parenthesis. Whichever substitution comes first takes the space, and the plus
sign then keeps the other one or loses both.

**Runs.** In a run such as `a + + + (b` every second plus sign loses its
spaces, so only a run of an odd number of them meets the mark with a space to
contend for.

**Results.**
* `closedAfter_eq`: without such a place every order gives the same text.
* `Contested.exists_ne`: with such a place two orders differ.
* `forall_normalSpacingWith_eq_iff`: normal spacing does not depend on the order
  of the table exactly for the texts without such a place.
-/

namespace StylesheetPruning

section Contested

/-- A plus sign and a space, over and over. -/
def plusPairs : Nat → Text
  | 0 => []
  | n + 1 => '+' :: ' ' :: plusPairs n

theorem plusPairs_add (m n : Nat) :
    plusPairs (m + n) = plusPairs m ++ plusPairs n := by
  induction m with
  | zero =>
      rw [Nat.zero_add]
      rfl
  | succ m ih =>
      rw [Nat.succ_add, plusPairs, plusPairs, ih]
      rfl

/-- A mark and a plus sign contend for a space. -/
inductive Contested : Text → Prop
  | behind {front back : Text} {c : Char} :
      LooseBehind looseSpaces c →
      (∀ d ∈ back.head?, ¬ LooseBefore looseSpaces d) →
      Contested (front ++ c :: ' ' :: '+' :: ' ' :: back)
  | before {front back : Text} {d : Char} (n : Nat) :
      (∀ c ∈ front.getLast?, ¬ LooseBehind looseSpaces c) →
      ¬ [' ', '+'] <:+ front →
      LooseBefore looseSpaces d →
      Contested (front ++ ' ' :: (plusPairs (2 * n + 1) ++ d :: back))

end Contested

section Agreement

/--
Reading has come to a place. A space behind it is no part of a match, and a
space in front of it begins one or follows an even number of plus signs.
-/
structure ReadTo (front rest : Text) : Prop where
  behindSpace : front.getLast? = some ' ' → ¬ ['+', ' '] <+: rest
  atSpace : rest.head? = some ' ' → ∃ start n,
    front ++ [' '] = start ++ ' ' :: plusPairs (2 * n) ∧
      (∀ c ∈ start.getLast?, ¬ LooseBehind looseSpaces c) ∧
      ¬ [' ', '+'] <:+ start

theorem ReadTo.start (rest : Text) : ReadTo [] rest := by
  refine ⟨fun h => by simp at h, fun _ => ⟨[], 0, rfl, by simp, by simp⟩⟩

theorem ReadTo.of_head {front rest : Text}
    (hhead : rest.head? ≠ some ' ') (hplus : ¬ ['+', ' '] <+: rest) :
    ReadTo front rest :=
  ⟨fun _ => hplus, fun h => absurd h hhead⟩

/-- The next characters of a text come to the same whatever is early. -/
structure Step (front rest part back out : Text) : Prop where
  cut : rest = part ++ back
  nonempty : part ≠ []
  readTo : ReadTo (front ++ part) back
  closed : ∀ early ⊆ looseSpaces,
    closedAfter early rest = out ++ closedAfter early back

/-- From a space, reading goes on behind it, a plus sign, or two plus signs. -/
theorem ReadTo.exists_step_space {front tail : Text}
    (hread : ReadTo front (' ' :: tail)) (hspaced : SingleSpaced (' ' :: tail))
    (h : ¬ Contested (front ++ ' ' :: tail)) :
    ∃ part back out, Step front (' ' :: tail) part back out := by
  obtain ⟨hsingle, htail⟩ := singleSpaced_cons.mp hspaced
  have hhead := hsingle rfl
  by_cases hplus : ['+', ' '] <+: tail
  · obtain ⟨back, rfl⟩ := hplus
    obtain ⟨start, n, hstart, hmark, hrun⟩ := hread.atSpace rfl
    have hback := (singleSpaced_cons.mp htail.tail).1 rfl
    by_cases hagain : ['+', ' '] <+: back
    · -- Two plus signs of a run: the space behind them is as the first one was.
      obtain ⟨back, rfl⟩ := hagain
      refine ⟨[' ', '+', ' ', '+'], ' ' :: back, ['+', '+'], rfl, by simp,
        ⟨fun hlast => by simp at hlast, fun _ => ⟨start, n + 1, ?_, hmark, hrun⟩⟩,
        fun early hearly => ?_⟩
      · calc front ++ [' ', '+', ' ', '+'] ++ [' ']
            = (front ++ [' ']) ++ ['+', ' ', '+', ' '] := by simp
          _ = start ++ ' ' :: plusPairs (2 * (n + 1)) := by
              rw [hstart, Nat.mul_add, plusPairs_add]
              simp [plusPairs]
      · have hnot : ∀ d ∈ ('+' :: ' ' :: back).head?,
            ¬ LooseBefore looseSpaces d := by
          intro d hd hloose
          exact hloose.mark.ne_plus (Option.some.inj hd).symm
        calc closedAfter early (' ' :: '+' :: ' ' :: '+' :: ' ' :: back)
            = '+' :: closedAfter early ('+' :: ' ' :: back) :=
              closedAfter_plus hearly hback hnot
          _ = '+' :: '+' :: closedAfter early (' ' :: back) := by
              rw [closedAfter_plusSign hearly]
    · have hnot : ∀ d ∈ back.head?, ¬ LooseBefore looseSpaces d := by
        intro d hd hloose
        obtain ⟨after, rfl⟩ := List.head?_eq_some_iff.mp hd
        refine h ?_
        have htext : front ++ ' ' :: (['+', ' '] ++ d :: after) =
            start ++ ' ' :: (plusPairs (2 * n + 1) ++ d :: after) := by
          calc front ++ ' ' :: (['+', ' '] ++ d :: after)
              = (front ++ [' ']) ++ ['+', ' '] ++ d :: after := by simp
            _ = start ++ ' ' :: (plusPairs (2 * n + 1) ++ d :: after) := by
                rw [hstart, plusPairs_add]
                simp [plusPairs]
        rw [htext]
        exact .before n hmark hrun hloose
      exact ⟨[' ', '+', ' '], back, ['+'], rfl, by simp, .of_head hback hagain,
        fun early hearly => closedAfter_plus hearly hback hnot⟩
  · by_cases hbefore : ∃ d ∈ tail.head?, LooseBefore looseSpaces d
    · obtain ⟨d, hd, hloose⟩ := hbefore
      obtain ⟨back, rfl⟩ := List.head?_eq_some_iff.mp hd
      exact ⟨[' '], d :: back, [], rfl, by simp, .of_head hhead hplus,
        fun early hearly => closedAfter_space_before hearly hloose back⟩
    · have hnot : ∀ d ∈ tail.head?, ¬ LooseBefore looseSpaces d :=
        fun d hd hloose => hbefore ⟨d, hd, hloose⟩
      exact ⟨[' '], tail, [' '], rfl, by simp, .of_head hhead hplus,
        fun early hearly => closedAfter_space hearly hhead hnot hplus⟩

/-- From a character, reading goes on behind it and what it contends for. -/
theorem ReadTo.exists_step_char {front tail : Text} {c : Char} (hc : c ≠ ' ')
    (hread : ReadTo front (c :: tail)) (hspaced : SingleSpaced (c :: tail))
    (h : ¬ Contested (front ++ c :: tail)) :
    ∃ part back out, Step front (c :: tail) part back out := by
  by_cases hmark : LooseBehind looseSpaces c ∧ tail.head? = some ' '
  · obtain ⟨hloose, hspace⟩ := hmark
    obtain ⟨rest, rfl⟩ := List.head?_eq_some_iff.mp hspace
    have hhead := (singleSpaced_cons.mp hspaced.tail).1 rfl
    by_cases hplus : ['+', ' '] <+: rest
    · -- The mark and the plus sign share a space, so a mark has to follow.
      obtain ⟨back, rfl⟩ := hplus
      have hbefore : ∃ d ∈ back.head?, LooseBefore looseSpaces d := by
        by_cases hbefore : ∃ d ∈ back.head?, LooseBefore looseSpaces d
        · exact hbefore
        · exact absurd (Contested.behind hloose
            fun d hd hd' => hbefore ⟨d, hd, hd'⟩) h
      obtain ⟨d, hd, hbefore⟩ := hbefore
      obtain ⟨after, rfl⟩ := List.head?_eq_some_iff.mp hd
      refine ⟨[c, ' ', '+', ' '], d :: after, [c, '+'], rfl, by simp,
        .of_head (fun heq => ?_) (not_plusAhead_of_mark hbefore.mark _),
        fun early hearly => closedAfter_between hearly hloose hbefore after⟩
      exact hbefore.mark.ne_space (Option.some.inj heq)
    · exact ⟨[c, ' '], rest, [c], rfl, by simp, .of_head hhead hplus,
        fun early hearly => closedAfter_behind hearly hloose hhead hplus⟩
  · have hnot : LooseBehind looseSpaces c → tail.head? ≠ some ' ' :=
      fun hloose hspace => hmark ⟨hloose, hspace⟩
    refine ⟨[c], tail, [c], rfl, by simp, ⟨?_, fun hspace => ?_⟩,
      fun early hearly => closedAfter_cons hearly hspaced.tail hc hnot⟩
    · intro hlast
      rw [List.getLast?_concat] at hlast
      exact absurd (Option.some.inj hlast) hc
    · refine ⟨front ++ [c], 0, rfl, ?_, ?_⟩
      · intro d hd
        rw [List.getLast?_concat] at hd
        rw [← Option.some.inj hd]
        exact fun hloose => hnot hloose hspace
      · intro hsuffix
        have hcut : ([' '] ++ ['+']) <:+ front ++ [c] := hsuffix
        obtain ⟨start, hstart⟩ := hcut
        rw [← List.append_assoc] at hstart
        obtain ⟨hfront, hlast⟩ := List.append_inj' hstart rfl
        have hplus : c = '+' := (List.singleton_inj.mp hlast).symm
        refine hread.behindSpace (by rw [← hfront]; simp) ?_
        obtain ⟨back, rfl⟩ := List.head?_eq_some_iff.mp hspace
        exact ⟨back, by rw [hplus]; rfl⟩

/-- Without contested spaces it does not matter which substitutions are early. -/
theorem closedAfter_eq {early early' : List Substitution}
    (hearly : early ⊆ looseSpaces) (hearly' : early' ⊆ looseSpaces)
    {front rest : Text} (hread : ReadTo front rest) (hspaced : SingleSpaced rest)
    (h : ¬ Contested (front ++ rest)) :
    closedAfter early rest = closedAfter early' rest := by
  induction hn : rest.length using Nat.strongRecOn generalizing front rest with
  | _ n ih =>
      cases rest with
      | nil =>
          rfl
      | cons c tail =>
          have hstep : ∃ part back out, Step front (c :: tail) part back out := by
            by_cases hc : c = ' '
            · subst hc
              exact hread.exists_step_space hspaced h
            · exact hread.exists_step_char hc hspaced h
          obtain ⟨part, back, out, hstep⟩ := hstep
          have hpart := List.length_pos_iff.mpr hstep.nonempty
          have hlength : back.length < n := by
            rw [← hn, hstep.cut, List.length_append]
            omega
          have hback : SingleSpaced back :=
            hspaced.of_part ⟨part, [], by rw [List.append_nil, hstep.cut]⟩
          rw [hstep.closed early hearly, hstep.closed early' hearly']
          refine congrArg _ (ih _ hlength hstep.readTo hback ?_ rfl)
          rwa [List.append_assoc, ← hstep.cut]

end Agreement

section Disagreement

/-- All spaces in front of marks are taken early. -/
def TakesBefore (early : List Substitution) : Prop :=
  ∀ d, LooseBefore looseSpaces d → LooseBefore early d

theorem append_cons_inj {front front' back back' : Text} {c : Char}
    (hc : isGap c = false) (hfront : ungapped front = ungapped front')
    (h : front ++ c :: back = front' ++ c :: back') :
    front = front' ∧ back = back' := by
  have hsolid : ∀ text : Text, ungapped (c :: text) ≠ [] := by
    simp [ungapped, hc]
  have hnil : ∀ between rest rest' : Text, ungapped between = [] →
      c :: rest = between ++ rest' → between = [] := by
    intro between rest rest' hungapped hcut
    cases between with
    | nil =>
        rfl
    | cons d tail =>
        obtain ⟨rfl, -⟩ := List.cons.inj hcut
        exact absurd hungapped (hsolid tail)
  have hbetween : front = front' := by
    rcases List.append_eq_append_iff.mp h with
      ⟨between, rfl, hcut⟩ | ⟨between, rfl, hcut⟩
    · rw [ungapped_append, List.self_eq_append_right] at hfront
      rw [hnil between _ _ hfront hcut, List.append_nil]
    · rw [ungapped_append, List.append_right_eq_self] at hfront
      rw [hnil between _ _ hfront hcut, List.append_nil]
  subst hbetween
  exact ⟨rfl, (List.cons.inj (List.append_cancel_left h)).2⟩

/-- A plus sign in front of a space and a mark keeps what is in front of it. -/
theorem closedAfter_plus_before {early : List Substitution}
    (hearly : early ⊆ looseSpaces) (htakes : TakesBefore early) {d : Char}
    (hd : LooseBefore looseSpaces d) (rest : Text) :
    closedAfter early (' ' :: '+' :: ' ' :: d :: rest) =
      ' ' :: '+' :: closedAfter early (d :: rest) := by
  have hspace := hd.mark.ne_space
  have hpass : tighten early (' ' :: '+' :: ' ' :: d :: rest) =
      tighten early (' ' :: '+' :: d :: rest) := by
    rw [tighten_space_plus hearly, tighten_space_plus hearly,
      tighten_space_before hspace (htakes d hd)]
  have hnot : ∀ e ∈ ('+' :: d :: rest).head?, ¬ LooseBefore looseSpaces e :=
    fun e he hloose => hloose.mark.ne_plus (Option.some.inj he).symm
  have hplus : ¬ ['+', ' '] <+: '+' :: d :: rest := by
    intro hprefix
    obtain ⟨-, htail⟩ := List.cons_prefix_cons.mp hprefix
    exact hspace (List.cons_prefix_cons.mp htail).1.symm
  calc closedAfter early (' ' :: '+' :: ' ' :: d :: rest)
      = closedAfter early (' ' :: '+' :: d :: rest) := by
        rw [closedAfter, hpass, closedAfter]
    _ = ' ' :: closedAfter early ('+' :: d :: rest) :=
        closedAfter_space hearly (by simp) hnot hplus
    _ = ' ' :: '+' :: closedAfter early (d :: rest) := by
        rw [closedAfter_plusSign hearly]

/-- A space in front that no mark takes shows in the result. -/
theorem closedAfter_ne_space {early early' : List Substitution}
    (hearly : early ⊆ looseSpaces) (hearly' : early' ⊆ looseSpaces)
    (htakes : TakesBefore early) (htakes' : TakesBefore early') {rest : Text}
    (hspaced : SingleSpaced rest) (hhead : rest.head? ≠ some ' ')
    (hbefore : ∀ d ∈ rest.head?, ¬ LooseBefore looseSpaces d) :
    closedAfter early rest ≠ closedAfter early' (' ' :: rest) := by
  induction hn : rest.length using Nat.strongRecOn
    generalizing rest early early' with
  | _ n ih =>
      by_cases hplus : ['+', ' '] <+: rest
      · obtain ⟨back, rfl⟩ := hplus
        have hback := singleSpaced_cons.mp hspaced.tail
        have hfirst : closedAfter early (['+', ' '] ++ back) =
            '+' :: closedAfter early (' ' :: back) :=
          closedAfter_plusSign hearly (' ' :: back)
        rw [hfirst]
        by_cases hmark : ∃ d ∈ back.head?, LooseBefore looseSpaces d
        · obtain ⟨d, hd, hloose⟩ := hmark
          obtain ⟨after, rfl⟩ := List.head?_eq_some_iff.mp hd
          intro heq
          have hsecond := closedAfter_plus_before hearly' htakes' hloose after
          have hchar := (List.cons.inj (heq.trans hsecond)).1
          exact absurd hchar (by decide)
        · -- The two orders change places behind the plus sign.
          have hnot : ∀ d ∈ back.head?, ¬ LooseBefore looseSpaces d :=
            fun d hd hloose => hmark ⟨d, hd, hloose⟩
          intro heq
          have hsecond := closedAfter_plus hearly' (hback.1 rfl) hnot
          refine ih back.length ?_ hearly' hearly htakes' htakes hback.2
            (hback.1 rfl) hnot rfl ?_
          · rw [← hn, List.length_append]
            simp
          · exact (List.cons.inj (heq.trans hsecond)).2.symm
      · rw [closedAfter_space hearly' hhead hbefore hplus]
        intro heq
        have hsame := head?_closedAfter_of_ne_space early hhead
        rw [heq, List.head?_cons] at hsame
        exact hhead hsame.symm

/-- The substitutions for a space behind a mark. -/
def spacesBehind : List Substitution :=
  looseSpaces.filter (fun s => s.pattern.tail = [' '])

/-- The substitutions for a space in front of a mark. -/
def spacesBefore : List Substitution :=
  looseSpaces.filter (fun s => s.pattern.dropLast = [' '])

theorem perm_looseSpaces :
    (spacesBefore ++ plusSigns :: spacesBehind).Perm looseSpaces ∧
      (spacesBehind ++ plusSigns :: spacesBefore).Perm looseSpaces := by
  have hmarks : (spacesBefore ++ spacesBehind).Perm looseSpaces.dropLast :=
    (List.perm_append_comm :
      (spacesBefore ++ spacesBehind.take 1).Perm _).append_right
        (spacesBehind.drop 1)
  have hlast : (plusSigns :: looseSpaces.dropLast).Perm looseSpaces :=
    (List.perm_append_singleton plusSigns looseSpaces.dropLast).symm
  constructor
  · exact (List.perm_middle.trans (hmarks.cons _)).trans hlast
  · refine (List.perm_middle.trans (List.Perm.cons _ ?_)).trans hlast
    exact List.perm_append_comm.trans hmarks

/-- The order of the table itself: plus signs come last. -/
theorem reordered_looseSpaces : Reordered looseSpaces.dropLast [] :=
  ⟨List.Perm.refl _⟩

theorem takesBefore_dropLast : TakesBefore looseSpaces.dropLast :=
  fun d hd => (reordered_looseSpaces.looseBefore_iff d).mpr hd

theorem takesBefore_spacesBefore : TakesBefore spacesBefore := by
  intro d hd
  rcases looseBefore_looseSpaces.mp hd with rfl | rfl <;> decide

theorem not_looseBehind_spacesBefore (c : Char) :
    ¬ LooseBehind spacesBefore c := by
  simp [LooseBehind, spacesBefore, looseSpaces]

theorem not_looseBefore_spacesBehind (d : Char) :
    ¬ LooseBefore spacesBehind d := by
  simp [LooseBefore, spacesBehind, looseSpaces]

/-- A mark whose space goes early keeps the plus sign from matching. -/
theorem closedAfter_behind_early {early : List Substitution}
    (hearly : early ⊆ looseSpaces) {c : Char} (hloose : LooseBehind early c)
    {rest : Text} (hspaced : SingleSpaced (' ' :: rest)) :
    closedAfter early (c :: ' ' :: '+' :: ' ' :: rest) =
      c :: '+' :: closedAfter early (' ' :: rest) := by
  have hspace := (hloose.mono hearly).mark.ne_space
  have hpass : tighten early (c :: ' ' :: '+' :: ' ' :: rest) =
      tighten early (c :: '+' :: ' ' :: rest) := by
    rw [tighten_behind_space hspace hloose (by simp),
      tighten_cons_of_ne_space hspace (fun _ => by simp)]
  have hplus : SingleSpaced ('+' :: ' ' :: rest) :=
    singleSpaced_cons.mpr ⟨fun heq => absurd heq (by decide), hspaced⟩
  calc closedAfter early (c :: ' ' :: '+' :: ' ' :: rest)
      = closedAfter early (c :: '+' :: ' ' :: rest) := by
        rw [closedAfter, hpass, closedAfter]
    _ = c :: '+' :: closedAfter early (' ' :: rest) := by
        rw [closedAfter_cons hearly hplus hspace (fun _ => by simp),
          closedAfter_plusSign hearly]

/-- A plus sign that comes early takes the space behind a mark as well. -/
theorem closedAfter_behind_late {early : List Substitution}
    (hearly : early ⊆ looseSpaces) {c : Char} (hc : LooseBehind looseSpaces c)
    (hloose : ¬ LooseBehind early c) {rest : Text}
    (hhead : rest.head? ≠ some ' ')
    (hbefore : ∀ d ∈ rest.head?, ¬ LooseBefore looseSpaces d) :
    closedAfter early (c :: ' ' :: '+' :: ' ' :: rest) =
      c :: '+' :: closedAfter early rest := by
  have hspace := hc.mark.ne_space
  rw [closedAfter, tighten_cons_of_ne_space hspace (fun h => absurd h hloose),
    tighten_space_plus hearly, tighten_space
      (fun d hd h => hbefore d hd (h.mono hearly)) hhead, plusSigns_cons hspace,
    plusSigns_around, tighten_cons_of_ne_space hspace (fun _ => by simp),
    tighten_plus (List.Subset.refl _), closedAfter]

/-- In a run the plus signs go two by two. -/
theorem closedAfter_plusPairs {early : List Substitution}
    (hearly : early ⊆ looseSpaces) (n : Nat) (rest : Text) :
    closedAfter early (' ' :: (plusPairs (2 * n) ++ rest)) =
      List.replicate (2 * n) '+' ++ closedAfter early (' ' :: rest) := by
  induction n with
  | zero =>
      rfl
  | succ n ih =>
      have hnot : ∀ d ∈ ('+' :: ' ' :: (plusPairs (2 * n) ++ rest)).head?,
          ¬ LooseBefore looseSpaces d :=
        fun d hd hloose => hloose.mark.ne_plus (Option.some.inj hd).symm
      calc closedAfter early (' ' :: (plusPairs (2 * (n + 1)) ++ rest))
          = closedAfter early
              (' ' :: '+' :: ' ' :: '+' :: ' ' :: (plusPairs (2 * n) ++ rest)) :=
            rfl
        _ = '+' :: '+' :: closedAfter early (' ' :: (plusPairs (2 * n) ++ rest)) := by
            rw [closedAfter_plus hearly (by simp) hnot, closedAfter_plusSign hearly]
        _ = List.replicate (2 * (n + 1)) '+' ++ closedAfter early (' ' :: rest) := by
            rw [ih, Nat.mul_succ, List.replicate_succ, List.replicate_succ]
            rfl

/-- A plus sign that comes early takes the space in front of a mark as well. -/
theorem closedAfter_plus_late {early : List Substitution}
    (hearly : early ⊆ looseSpaces) {d : Char} (hd : LooseBefore looseSpaces d)
    (hloose : ¬ LooseBefore early d) :
    closedAfter early [' ', '+', ' ', d] = ['+', d] := by
  have hspace := hd.mark.ne_space
  have hpass : tighten early [' ', '+', ' ', d] = [' ', '+', ' ', d] := by
    rw [tighten_space_plus hearly, tighten_space, tighten_before_cons hearly hd]
    · rfl
    · intro e he h
      rw [← Option.some.inj he] at h
      exact hloose h
    · exact fun heq => hspace (Option.some.inj heq)
  rw [closedAfter, hpass, plusSigns_around, plusSigns_cons hspace,
    tighten_plus (List.Subset.refl _),
    tighten_before_cons (List.Subset.refl _) hd]
  rfl

theorem SingleSpaced.getLast?_ne_space {front : Text}
    (h : SingleSpaced (front ++ [' '])) : front.getLast? ≠ some ' ' := by
  intro hlast
  obtain ⟨start, rfl⟩ := List.getLast?_eq_some_iff.mp hlast
  exact h ⟨start, [], by simp [doubleSpace]⟩

/-- What a run in front of a mark leaves, by what a single plus sign leaves. -/
theorem closedAfter_run {early : List Substitution}
    (hearly : early ⊆ looseSpaces) {front back : Text} {d : Char} (n : Nat)
    (hspaced : SingleSpaced (front ++ [' ']))
    (hmark : ∀ c ∈ front.getLast?, ¬ LooseBehind looseSpaces c)
    (hplus : ¬ [' ', '+'] <:+ front) (hd : LooseBefore looseSpaces d) :
    closedAfter early (front ++ ' ' :: (plusPairs (2 * n + 1) ++ d :: back)) =
      closedAfter early front ++ (List.replicate (2 * n) '+' ++
        (closedAfter early [' ', '+', ' ', d] ++ closedAfter early back)) := by
  have hrun : closedAfter early (' ' :: (plusPairs (2 * n + 1) ++ d :: back)) =
      List.replicate (2 * n) '+' ++
        (closedAfter early [' ', '+', ' ', d] ++ closedAfter early back) := by
    have hone : closedAfter early ([' ', '+', ' ', d] ++ back) =
        closedAfter early [' ', '+', ' ', d] ++ closedAfter early back := by
      refine closedAfter_append hearly rfl hd.mark.ne_space hd.not_looseBehind ?_
      rintro ⟨start, hstart⟩
      have hlast := congrArg List.getLast? hstart
      simp only [List.getLast?_append] at hlast
      exact hd.mark.ne_plus (Option.some.inj hlast).symm
    rw [plusPairs_add, List.append_assoc, ← hone]
    exact closedAfter_plusPairs hearly n ('+' :: ' ' :: d :: back)
  rw [← hrun]
  cases hlast : front.getLast? with
  | none =>
      rw [List.getLast?_eq_none_iff.mp hlast]
      rfl
  | some c =>
      refine closedAfter_append hearly hlast ?_ (hmark c hlast) hplus
      rintro rfl
      exact hspaced.getLast?_ne_space hlast

/-- No space stands behind what a text and some plus signs become. -/
theorem getLast?_closedAfter_replicate {early : List Substitution}
    {front : Text} (hspaced : SingleSpaced (front ++ [' '])) (n : Nat) :
    (closedAfter early front ++ List.replicate n '+').getLast? ≠ some ' ' := by
  cases n with
  | succ n =>
      rw [List.replicate_succ', ← List.append_assoc, List.getLast?_concat]
      simp
  | zero =>
      rw [List.replicate_zero, List.append_nil]
      cases hlast : front.getLast? with
      | none =>
          rw [List.getLast?_eq_none_iff.mp hlast]
          simp
      | some c =>
          have hc : c ≠ ' ' := by
            rintro rfl
            exact hspaced.getLast?_ne_space hlast
          rw [getLast?_closedAfter hc hlast]
          exact fun heq => hc (Option.some.inj heq)

theorem closeUp_looseSpaces {text : Text} (hspaced : SingleSpaced text) :
    closeUp looseSpaces text = closedAfter looseSpaces.dropLast text :=
  closeUp_eq_closedAfter reordered_looseSpaces hspaced

/-- With plus signs in front of commas and colons another text comes out. -/
theorem closeUp_behind_ne {front back : Text} {c : Char}
    (hc : LooseBehind looseSpaces c)
    (hback : ∀ d ∈ back.head?, ¬ LooseBefore looseSpaces d)
    (hspaced : SingleSpaced (front ++ c :: ' ' :: '+' :: ' ' :: back)) :
    closeUp (spacesBefore ++ plusSigns :: spacesBehind)
        (front ++ c :: ' ' :: '+' :: ' ' :: back) ≠
      closeUp looseSpaces (front ++ c :: ' ' :: '+' :: ' ' :: back) := by
  have hfirst : Reordered spacesBefore spacesBehind := ⟨perm_looseSpaces.1⟩
  have hearly := hfirst.early_subset
  have hall := reordered_looseSpaces.early_subset
  have hloose : LooseBehind looseSpaces.dropLast c := by
    have hiff := reordered_looseSpaces.looseBehind_iff c
    simpa using hiff.mpr hc
  have hpart : SingleSpaced (' ' :: back) :=
    hspaced.of_part ⟨front ++ [c, ' ', '+'], [], by simp⟩
  have hhead := (singleSpaced_cons.mp hpart).1 rfl
  have hgap : isGap c = false := by
    rcases looseBehind_looseSpaces.mp hc with rfl | rfl <;> decide
  intro heq
  rw [closeUp_looseSpaces hspaced, closeUp_eq_closedAfter hfirst hspaced,
    closedAfter_append_behind hearly hc, closedAfter_append_behind hall hc,
    closedAfter_behind_late hearly hc (not_looseBehind_spacesBefore c) hhead hback,
    closedAfter_behind_early hall hloose hpart] at heq
  have hrest := (append_cons_inj hgap (by
    rw [ungapped_closedAfter, ungapped_closedAfter]) heq).2
  exact closedAfter_ne_space hearly hall takesBefore_spacesBefore
    takesBefore_dropLast hpart.tail hhead hback (List.cons.inj hrest).2

/-- With plus signs in front of braces and parentheses another text comes out. -/
theorem closeUp_before_ne {front back : Text} {d : Char} (n : Nat)
    (hmark : ∀ c ∈ front.getLast?, ¬ LooseBehind looseSpaces c)
    (hplus : ¬ [' ', '+'] <:+ front) (hd : LooseBefore looseSpaces d)
    (hspaced : SingleSpaced
      (front ++ ' ' :: (plusPairs (2 * n + 1) ++ d :: back))) :
    closeUp (spacesBehind ++ plusSigns :: spacesBefore)
        (front ++ ' ' :: (plusPairs (2 * n + 1) ++ d :: back)) ≠
      closeUp looseSpaces
        (front ++ ' ' :: (plusPairs (2 * n + 1) ++ d :: back)) := by
  have hfirst : Reordered spacesBehind spacesBefore := ⟨perm_looseSpaces.2⟩
  have hearly := hfirst.early_subset
  have hall := reordered_looseSpaces.early_subset
  have hfront : SingleSpaced (front ++ [' ']) :=
    hspaced.of_part ⟨[], plusPairs (2 * n + 1) ++ d :: back, by simp⟩
  have hgap : isGap d = false := by
    rcases looseBefore_looseSpaces.mp hd with rfl | rfl <;> decide
  have hone : closedAfter looseSpaces.dropLast [' ', '+', ' ', d] =
      [' ', '+', d] := by
    rw [closedAfter_plus_before hall takesBefore_dropLast hd,
      closedAfter_before hall hd, closedAfter_nil]
  intro heq
  rw [closeUp_looseSpaces hspaced, closeUp_eq_closedAfter hfirst hspaced,
    closedAfter_run hearly n hfront hmark hplus hd,
    closedAfter_run hall n hfront hmark hplus hd, hone,
    closedAfter_plus_late hearly hd (not_looseBefore_spacesBehind d)] at heq
  have hcut :
      (closedAfter spacesBehind front ++ List.replicate (2 * n) '+' ++ ['+']) ++
          d :: closedAfter spacesBehind back =
        (closedAfter looseSpaces.dropLast front ++
          List.replicate (2 * n) '+' ++ [' '] ++ ['+']) ++
            d :: closedAfter looseSpaces.dropLast back := by
    simpa using heq
  have hspace : ungapped [' '] = [] := rfl
  have hsame := (append_cons_inj hgap (by
    simp only [ungapped_append, ungapped_closedAfter, hspace,
      List.append_nil]) hcut).1
  have hlast := congrArg List.getLast? (List.append_inj_left' hsame rfl)
  rw [List.getLast?_concat] at hlast
  exact getLast?_closedAfter_replicate hfront (2 * n) hlast

/-- Where a space is contested, two orders of the table differ. -/
theorem Contested.exists_ne {text : Text} (h : Contested text)
    (hspaced : SingleSpaced text) :
    ∃ table, table.Perm looseSpaces ∧
      closeUp table text ≠ closeUp looseSpaces text := by
  cases h with
  | behind hc hback =>
      exact ⟨_, perm_looseSpaces.1, closeUp_behind_ne hc hback hspaced⟩
  | before n hmark hplus hd =>
      exact ⟨_, perm_looseSpaces.2, closeUp_before_ne n hmark hplus hd hspaced⟩

end Disagreement

section Order

theorem singleSpaced_collapseGaps (text : Text) :
    SingleSpaced (collapseGaps text) :=
  (collapsed_collapseGaps text).2

/--
Normal spacing does not depend on the order of the table exactly where no mark
and plus sign contend for a space.
-/
theorem forall_normalSpacingWith_eq_iff (text : Text) :
    (∀ table, table.Perm looseSpaces →
      normalSpacingWith table text = normalSpacing text) ↔
        ¬ Contested (collapseGaps text) := by
  have hspaced := singleSpaced_collapseGaps text
  constructor
  · intro hall hcontested
    obtain ⟨table, hperm, hne⟩ := hcontested.exists_ne hspaced
    exact hne (hall table hperm)
  · intro hnot table hperm
    obtain ⟨early, late, rfl, hreordered⟩ := exists_reordered hperm
    calc normalSpacingWith (early ++ plusSigns :: late) text
        = closedAfter early (collapseGaps text) :=
          closeUp_eq_closedAfter hreordered hspaced
      _ = closedAfter looseSpaces.dropLast (collapseGaps text) :=
          closedAfter_eq hreordered.early_subset
            reordered_looseSpaces.early_subset (.start _) hspaced hnot
      _ = normalSpacing text := (closeUp_looseSpaces hspaced).symm

/-- The space in front of a parenthesis goes to the plus sign or not. -/
theorem normalSpacingWith_ne_sum :
    ¬ ∀ (text : Text) (table : List Substitution), table.Perm looseSpaces →
      normalSpacingWith table text = normalSpacing text := by
  intro hall
  have hsum := hall "1px + (2px)".toList _ perm_looseSpaces.2
  exact absurd hsum (by decide)

end Order

end StylesheetPruning
