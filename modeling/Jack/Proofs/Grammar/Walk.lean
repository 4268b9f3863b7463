import Mathlib.Computability.Language
import Jack.Grammar.Cursor
import Jack.Proofs.Grammar.Reading

/-! Rules without the bounds on what they leave. A walk takes tokens from the front of a list and
leaves the others, whether or not it finds what it looks for. Three things are shown of a walk
through a language: the tokens that it takes are in the language, the tokens that it took before
it failed begin something in the language, and it looks at no token behind the one in front of
which it stops. -/

namespace Jack

/-- The construct that a failed rule belongs to, and what should have stood there. -/
abbrev Miss := Construct × String

def Walk (α : Type) := List Token → Except Miss α × List Token

namespace Walk

variable {α β : Type}

instance : Monad Walk where
  pure value := fun ts => (.ok value, ts)
  bind first next := fun ts =>
    match first ts with
    | (.ok value, left) => next value left
    | (.error miss, left) => (.error miss, left)

def fail (miss : Miss) : Walk α := fun ts => (.error miss, ts)

/-- What to do depends on the next token, which is not taken yet. -/
def look (next : Option Token → Walk α) : Walk α := fun ts => next ts.head? ts

/-- A token for which there is a way on is taken. -/
def branch (onward : Token → Option (Walk α)) (otherwise : Walk α) : Walk α := fun ts =>
  match ts with
  | token :: rest =>
    match onward token with
    | some next => next rest
    | none => otherwise (token :: rest)
  | [] => otherwise []

def ifNext (token : Token) (onward otherwise : Walk α) : Walk α :=
  branch (fun next => if next = token then some onward else none) otherwise

theorem ifNext_token (token : Token) (onward otherwise : Walk α) (rest : List Token) :
    ifNext token onward otherwise (token :: rest) = onward rest := by
  simp only [ifNext, branch, if_true]

theorem ifNext_of_ne {token : Token} (onward otherwise : Walk α) {ts : List Token}
    (h : ∀ rest, ts ≠ token :: rest) : ifNext token onward otherwise ts = otherwise ts := by
  cases ts with
  | nil => rfl
  | cons next rest =>
    have hne : next ≠ token := fun heq => h rest (by rw [heq])
    simp only [ifNext, branch, if_neg hne]

theorem bind_of_ok {first : Walk α} {ts left : List Token} {a : α}
    (h : first ts = (.ok a, left)) (next : α → Walk β) : (first >>= next) ts = next a left := by
  show (match first ts with
    | (.ok value, left) => next value left
    | (.error miss, left) => (.error miss, left)) = _
  rw [h]

theorem bind_of_error {first : Walk α} {ts left : List Token} {miss : Miss}
    (h : first ts = (.error miss, left)) (next : α → Walk β) :
    (first >>= next) ts = (.error miss, left) := by
  show (match first ts with
    | (.ok value, left) => next value left
    | (.error miss, left) => (.error miss, left)) = _
  rw [h]

end Walk

namespace Reading

variable {α β : Type} {n m : Nat}

/-- What came of a rule, and the tokens that it left. -/
def outcome : Reading α n → Except Miss α × List Token
  | .ok parsed => (.ok parsed.value, parsed.rest)
  | .error failure => (.error (failure.construct, failure.expected), failure.rest)

def walk {bound : List Token → Nat} (rule : (ts : List Token) → Reading α (bound ts)) : Walk α :=
  fun ts => (rule ts).outcome

theorem outcome_bind {r : Reading α n} {f : Parsed α n → Reading β m} {first : Walk α}
    {next : α → Walk β} {ts : List Token} (hfirst : r.outcome = first ts)
    (hnext : ∀ p, (f p).outcome = next p.value p.rest) :
    outcome (r >>= f) = (first >>= next) ts := by
  cases r with
  | error failure => exact (Walk.bind_of_error hfirst.symm next).symm
  | ok p => exact (hnext p).trans (Walk.bind_of_ok hfirst.symm next).symm

theorem outcome_rewrap {r : Reading α n} {f : Parsed α n → Parsed α m}
    (hvalue : ∀ p, (f p).value = p.value) (hrest : ∀ p, (f p).rest = p.rest) :
    outcome (r >>= fun p => pure (f p)) = outcome r := by
  cases r with
  | error failure => rfl
  | ok p => exact Prod.ext (congrArg Except.ok (hvalue p)) (hrest p)

theorem outcome_map {node : α → β} {r : Reading α n} {f : Parsed α n → Parsed β m}
    (hvalue : ∀ p, (f p).value = node p.value) (hrest : ∀ p, (f p).rest = p.rest) :
    outcome (r.map f) = (r.outcome.1.map node, r.outcome.2) := by
  cases r with
  | error failure => rfl
  | ok p => exact Prod.ext (congrArg Except.ok (hvalue p)) (hrest p)

theorem gives_iff_outcome {r : Reading α n} {value : α} {rest : List Token} :
    r.Gives value rest ↔ r.outcome = (.ok value, rest) := by
  cases r with
  | error failure =>
    refine iff_of_false ?_ ?_
    · rintro ⟨h, heq⟩
      cases heq
    · simp [outcome]
  | ok p => simp [gives_ok_iff, outcome]

theorem gives_map_iff {node : α → β} {r : Reading α n} {f : Parsed α n → Parsed β m}
    {result : β} {rest : List Token} (hvalue : ∀ p, (f p).value = node p.value)
    (hrest : ∀ p, (f p).rest = p.rest) :
    Gives (r.map f) result rest ↔ ∃ value, node value = result ∧ r.Gives value rest := by
  simp only [gives_iff_outcome, outcome_map hvalue hrest]
  rcases r.outcome with ⟨miss | value, left⟩ <;> simp [Except.map]

end Reading

/-- The tokens that spell one of some values. -/
abbrev spellings {α : Type} (spell : α → List Token) (values : Set α) : Language Token :=
  spell '' values

/-- The tokens that have a value, each by itself. -/
abbrev singles {α : Type} (spell : α → Token) : Language Token :=
  spellings (fun value => [spell value]) Set.univ

/-- A language in which something can be said. -/
class Productive (L : Language Token) : Prop where
  nonempty : ∃ ts, ts ∈ L

instance (ts : List Token) : Productive {ts} := ⟨ts, rfl⟩

instance {α : Type} [Inhabited α] (spell : α → Token) : Productive (singles spell) :=
  ⟨_, default, trivial, rfl⟩

instance : Productive 1 := ⟨[], Language.nil_mem_one⟩

instance (A B : Language Token) [Productive A] [Productive B] : Productive (A * B) := by
  obtain ⟨a, ha⟩ := Productive.nonempty (L := A)
  obtain ⟨b, hb⟩ := Productive.nonempty (L := B)
  exact ⟨a ++ b, Language.append_mem_mul ha hb⟩

namespace Walk

variable {α β : Type} {N M : Nat} {A B L : Language Token}

/-- What is shown of a walk through a language, for token lists shorter than `N`. -/
structure Reads (N : Nat) (L : Language Token) (walk : Walk α) : Prop where
  ok : ∀ {ts value left}, ts.length < N → walk ts = (.ok value, left) →
    ∃ taken ∈ L, ts = taken ++ left
  error : ∀ {ts miss left}, ts.length < N → walk ts = (.error miss, left) →
    ∃ taken more, taken ++ more ∈ L ∧ ts = taken ++ left
  alike : ∀ (before : List Token) {t rest left answer}, (before ++ t :: rest).length < N →
    walk (before ++ t :: rest) = (answer, left ++ t :: rest) →
      ∀ more, walk (before ++ t :: more) = (answer, left ++ t :: more)

namespace Reads

theorem zero {walk : Walk α} : walk.Reads 0 L where
  ok h := absurd h (Nat.not_lt_zero _)
  error h := absurd h (Nat.not_lt_zero _)
  alike _ _ _ _ _ h := absurd h (Nat.not_lt_zero _)

theorem mono {walk : Walk α} (reads : walk.Reads N A) (hsub : ∀ ts ∈ A, ts ∈ L) :
    walk.Reads N L where
  ok hlt h := by
    obtain ⟨taken, htaken, hts⟩ := reads.ok hlt h
    exact ⟨taken, hsub _ htaken, hts⟩
  error hlt h := by
    obtain ⟨taken, more, hmore, hts⟩ := reads.error hlt h
    exact ⟨taken, more, hsub _ hmore, hts⟩
  alike := reads.alike

theorem pure (value : α) : Reads N 1 (Pure.pure value : Walk α) where
  ok _ h := by
    cases h
    exact ⟨[], Language.nil_mem_one, rfl⟩
  error _ h := by cases h
  alike _ _ _ _ _ _ h more := by
    obtain ⟨rfl, hleft⟩ := Prod.mk.inj h
    obtain rfl := List.append_cancel_right hleft
    rfl

theorem fail [Productive L] (miss : Miss) : Reads N L (Walk.fail miss : Walk α) where
  ok _ h := by cases h
  error _ h := by
    cases h
    obtain ⟨more, hmore⟩ := Productive.nonempty (L := L)
    exact ⟨[], more, hmore, rfl⟩
  alike _ _ _ _ _ _ h more := by
    obtain ⟨rfl, hleft⟩ := Prod.mk.inj h
    obtain rfl := List.append_cancel_right hleft
    rfl

theorem look {next : Option Token → Walk α} (reads : ∀ token, (next token).Reads N L) :
    (Walk.look next).Reads N L where
  ok hlt h := (reads _).ok hlt h
  error hlt h := (reads _).error hlt h
  alike before t rest left answer hlt h more := by
    have hhead : (before ++ t :: rest).head? = (before ++ t :: more).head? := by
      cases before <;> rfl
    have hrun := (reads _).alike before hlt h more
    rwa [hhead] at hrun

theorem exists_taken {walk : Walk α} (reads : walk.Reads N L) {ts left : List Token}
    {answer : Except Miss α} (hlt : ts.length < N) (h : walk ts = (answer, left)) :
    ∃ taken, ts = taken ++ left := by
  cases answer with
  | ok value =>
    obtain ⟨taken, -, hts⟩ := reads.ok hlt h
    exact ⟨taken, hts⟩
  | error miss =>
    obtain ⟨taken, -, -, hts⟩ := reads.error hlt h
    exact ⟨taken, hts⟩

/-- Where the first walk has taken `taken`, the second one need only be known to read what is
left. -/
theorem bind_of_le [Productive B] {first : Walk α} {next : α → Walk β}
    (hfirst : first.Reads N A) (hnext : ∀ value, (next value).Reads M B)
    (hle : ∀ taken ∈ A, N ≤ M + taken.length) : (first >>= next).Reads N (A * B) := by
  have hshort {x mid : List Token} (hx : x ∈ A) (hlt : (x ++ mid).length < N) :
      mid.length < M := by
    have := hle x hx
    rw [List.length_append] at hlt
    omega
  constructor
  · intro ts value left hlt h
    rcases hrun : first ts with ⟨miss | a, mid⟩
    · rw [bind_of_error hrun] at h
      cases h
    · rw [bind_of_ok hrun] at h
      obtain ⟨x, hx, rfl⟩ := hfirst.ok hlt hrun
      obtain ⟨y, hy, rfl⟩ := (hnext a).ok (hshort hx hlt) h
      exact ⟨x ++ y, Language.append_mem_mul hx hy, (List.append_assoc x y left).symm⟩
  · intro ts miss left hlt h
    rcases hrun : first ts with ⟨miss' | a, mid⟩
    · rw [bind_of_error hrun] at h
      cases h
      obtain ⟨x, more, hx, rfl⟩ := hfirst.error hlt hrun
      obtain ⟨y, hy⟩ := Productive.nonempty (L := B)
      refine ⟨x, more ++ y, ?_, rfl⟩
      rw [← List.append_assoc]
      exact Language.append_mem_mul hx hy
    · rw [bind_of_ok hrun] at h
      obtain ⟨x, hx, rfl⟩ := hfirst.ok hlt hrun
      obtain ⟨y, more, hy, rfl⟩ := (hnext a).error (hshort hx hlt) h
      refine ⟨x ++ y, more, ?_, (List.append_assoc x y left).symm⟩
      rw [List.append_assoc]
      exact Language.append_mem_mul hx hy
  · intro before t rest left answer hlt h more
    rcases hrun : first (before ++ t :: rest) with ⟨miss | a, mid⟩
    · rw [bind_of_error hrun] at h
      cases h
      exact bind_of_error (hfirst.alike before hlt hrun more) next
    · rw [bind_of_ok hrun] at h
      obtain ⟨x, hx, hbefore⟩ := hfirst.ok hlt hrun
      rw [hbefore] at hlt
      have hmid := hshort hx hlt
      -- what the second walk leaves is the end of what the first one leaves
      obtain ⟨y, rfl⟩ := (hnext a).exists_taken hmid h
      rw [← hbefore] at hlt
      rw [← List.append_assoc] at hrun hmid h
      rw [bind_of_ok (hfirst.alike before hlt hrun more)]
      exact (hnext a).alike _ hmid h more

theorem bind [Productive B] {first : Walk α} {next : α → Walk β} (hfirst : first.Reads N A)
    (hnext : ∀ value, (next value).Reads N B) : (first >>= next).Reads N (A * B) :=
  hfirst.bind_of_le hnext fun _ _ => Nat.le_add_right N _

/-- Behind a token the list is shorter, which is what a recursion of rules goes by. -/
theorem bind_lt [Productive B] {first : Walk α} {next : α → Walk β}
    (hfirst : first.Reads (N + 1) A) (hne : ∀ taken ∈ A, taken ≠ [])
    (hnext : ∀ value, (next value).Reads N B) : (first >>= next).Reads (N + 1) (A * B) := by
  refine hfirst.bind_of_le hnext fun taken htaken => ?_
  exact Nat.add_le_add_left (List.length_pos_iff.mpr (hne taken htaken)) N

theorem map {node : α → β} {bound bound' : List Token → Nat}
    {rule : (ts : List Token) → Reading α (bound ts)}
    {f : (ts : List Token) → Parsed α (bound ts) → Parsed β (bound' ts)}
    (hvalue : ∀ ts p, (f ts p).value = node p.value) (hrest : ∀ ts p, (f ts p).rest = p.rest)
    (reads : (Reading.walk rule).Reads N L) :
    (Reading.walk fun ts => (rule ts).map (f ts)).Reads N L := by
  have hwalk : Reading.walk (fun ts => (rule ts).map (f ts)) = (do
      let value ← Reading.walk rule
      return node value) := by
    funext ts
    show Reading.outcome ((rule ts).map (f ts)) = _
    rw [Reading.outcome_map (hvalue ts) (hrest ts)]
    show (Except.map node (Reading.walk rule ts).1, (Reading.walk rule ts).2) = _
    rcases hrun : Reading.walk rule ts with ⟨miss | value, left⟩
    · exact (bind_of_error hrun _).symm
    · exact (bind_of_ok hrun fun value => Pure.pure (node value)).symm
  rw [hwalk, ← mul_one L]
  exact reads.bind fun value => .pure _

theorem branch {onward : Token → Option (Walk α)} {otherwise : Walk α}
    (honward : ∀ token next, onward token = some next →
      ∃ B : Language Token, next.Reads (N - 1) B ∧ ∀ ts ∈ B, token :: ts ∈ L)
    (hother : otherwise.Reads N L) : (Walk.branch onward otherwise).Reads N L := by
  have htaken {token rest next} (h : onward token = some next) :
      Walk.branch onward otherwise (token :: rest) = next rest := by
    simp only [Walk.branch, h]
  have hleft {token rest} (h : onward token = none) :
      Walk.branch onward otherwise (token :: rest) = otherwise (token :: rest) := by
    simp only [Walk.branch, h]
  constructor
  · intro ts value left hlt h
    rcases ts with _ | ⟨token, rest⟩
    · exact hother.ok hlt h
    · cases hway : onward token with
      | none => exact hother.ok hlt ((hleft hway).symm.trans h)
      | some next =>
        obtain ⟨B, hnext, hB⟩ := honward token next hway
        obtain ⟨x, hx, rfl⟩ := hnext.ok (Nat.lt_sub_of_add_lt hlt) ((htaken hway).symm.trans h)
        exact ⟨token :: x, hB x hx, rfl⟩
  · intro ts miss left hlt h
    rcases ts with _ | ⟨token, rest⟩
    · exact hother.error hlt h
    · cases hway : onward token with
      | none => exact hother.error hlt ((hleft hway).symm.trans h)
      | some next =>
        obtain ⟨B, hnext, hB⟩ := honward token next hway
        obtain ⟨x, more, hx, rfl⟩ :=
          hnext.error (Nat.lt_sub_of_add_lt hlt) ((htaken hway).symm.trans h)
        exact ⟨token :: x, more, hB _ hx, rfl⟩
  · intro before t rest left answer hlt h more
    rcases before with _ | ⟨token, before⟩
    · cases hway : onward t with
      | none =>
        exact (hleft hway).trans (hother.alike [] hlt ((hleft hway).symm.trans h) more)
      | some next =>
        -- the token in front of which the walk should stop would have been taken
        obtain ⟨B, hnext, -⟩ := honward t next hway
        obtain ⟨x, hx⟩ :=
          hnext.exists_taken (Nat.lt_sub_of_add_lt hlt) ((htaken hway).symm.trans h)
        have hlength := congrArg List.length hx
        simp only [List.length_append, List.length_cons] at hlength
        omega
    · cases hway : onward token with
      | none =>
        exact (hleft hway).trans
          (hother.alike (token :: before) hlt ((hleft hway).symm.trans h) more)
      | some next =>
        obtain ⟨B, hnext, -⟩ := honward token next hway
        exact (htaken hway).trans
          (hnext.alike before (Nat.lt_sub_of_add_lt hlt) ((htaken hway).symm.trans h) more)

theorem ifNext {token : Token} {onward otherwise : Walk α} (honward : onward.Reads (N - 1) B)
    (hB : ∀ ts ∈ B, token :: ts ∈ L) (hother : otherwise.Reads N L) :
    (Walk.ifNext token onward otherwise).Reads N L := by
  refine .branch (fun next walk h => ?_) hother
  obtain ⟨rfl, hwalk⟩ := Option.ite_none_right_eq_some.mp h
  cases hwalk
  exact ⟨B, honward, hB⟩

theorem of_takesOne [Inhabited α] {rule : (ts : List Token) → Reading α ts.length}
    {spell : α → Token} {construct : Construct} {expected : String}
    (one : Reading.TakesOne rule spell construct expected) :
    (Reading.walk rule).Reads N (singles spell) := by
  have hvalue : Function.IsPartialInv spell (Function.partialInv spell) :=
    one.injective.isPartialInv
  have hwalk : Reading.walk rule =
      Walk.branch (fun token => (Function.partialInv spell token).map Pure.pure)
        (Walk.fail (construct, expected)) := by
    funext ts
    rcases ts with _ | ⟨token, rest⟩
    · exact congrArg Reading.outcome (one.stops [] fun _ _ => (List.cons_ne_nil _ _).symm)
    · cases hinverse : Function.partialInv spell token with
      | some value =>
        obtain rfl := (hvalue _ _).mp hinverse
        simp only [Walk.branch, hinverse]
        exact congrArg Reading.outcome (one.takes value rest)
      | none =>
        simp only [Walk.branch, hinverse]
        refine congrArg Reading.outcome (one.stops _ fun value after hts => ?_)
        have hsome := (hvalue value token).mpr (List.cons.inj hts).1.symm
        rw [hinverse] at hsome
        cases hsome
  rw [hwalk]
  refine .branch (fun token next h => ?_) (.fail _)
  obtain ⟨value, hinverse, rfl⟩ := Option.map_eq_some_iff.mp h
  refine ⟨1, .pure value, ?_⟩
  rintro _ rfl
  exact ⟨value, trivial, congrArg ([·]) ((hvalue _ _).mp hinverse)⟩

theorem keyword (word : Keyword) (construct : Construct) :
    (Reading.walk (Reading.keyword word construct)).Reads N {[.keyword word]} := by
  refine (of_takesOne (Reading.takesOne_keyword word construct)).mono ?_
  rintro _ ⟨_, -, rfl⟩
  rfl

theorem symbol (s : Symbol) (construct : Construct) :
    (Reading.walk (Reading.symbol s construct)).Reads N {[.symbol s]} := by
  refine (of_takesOne (Reading.takesOne_symbol s construct)).mono ?_
  rintro _ ⟨_, -, rfl⟩
  rfl

theorem identifier (construct : Construct) (expected : String) :
    (Reading.walk (Reading.identifier construct expected)).Reads N (singles .identifier) :=
  of_takesOne (Reading.takesOne_identifier construct expected)

end Reads

end Walk

/-! Repetition. -/

namespace Reading

open Walk

variable {α : Type} {N : Nat} {rule : (ts : List Token) → Reading α ts.length}
  {spell : α → List Token} {values : Set α}

theorem walk_many {begins : List Token → Bool}
    (hbegins : ∀ token rest, begins (token :: rest) = begins [token]) :
    walk (many begins rule) = look fun next =>
      if begins next.toList then do
        let first ← walk rule
        let others ← walk (many begins rule)
        return first :: others
      else
        return [] := by
  funext ts
  have hhead : begins ts.head?.toList = begins ts := by
    cases ts with
    | nil => rfl
    | cons token rest => exact (hbegins token rest).symm
  show outcome (many begins rule ts) = _
  rw [many]
  simp only [look, hhead]
  split
  · exact outcome_bind rfl fun _ => outcome_bind rfl fun _ => rfl
  · rfl

theorem reads_many {begins : List Token → Bool}
    (hbegins : ∀ token rest, begins (token :: rest) = begins [token])
    (hne : ∀ value ∈ values, spell value ≠ [])
    (hrule : ∀ N, (walk rule).Reads N (spellings spell values)) :
    (walk (many begins rule)).Reads N
      (spellings (List.flatMap spell) {vs | ∀ v ∈ vs, v ∈ values}) := by
  have : Productive (spellings (List.flatMap spell) {vs | ∀ v ∈ vs, v ∈ values}) :=
    ⟨[], [], fun v hv => absurd hv List.not_mem_nil, rfl⟩
  induction N with
  | zero => exact .zero
  | succ N ih =>
    rw [walk_many hbegins]
    refine .look fun next => ?_
    split
    · refine ((hrule _).bind_lt ?_ fun first => ih.bind fun others => .pure _).mono ?_
      · rintro _ ⟨value, hvalue, rfl⟩
        exact hne value hvalue
      · rintro _ ⟨_, ⟨first, hfirst, rfl⟩, _, ⟨_, ⟨others, hothers, rfl⟩, _, rfl, rfl⟩, rfl⟩
        refine ⟨first :: others, List.forall_mem_cons.mpr ⟨hfirst, hothers⟩, ?_⟩
        simp
    · refine Reads.mono (.pure _) ?_
      rintro _ rfl
      exact ⟨[], fun v hv => absurd hv List.not_mem_nil, rfl⟩

theorem walk_afterCommas :
    walk (afterCommas rule) = ifNext (.symbol .comma)
      (do
        let first ← walk rule
        let others ← walk (afterCommas rule)
        return first :: others)
      (return []) := by
  funext ts
  show outcome (afterCommas rule ts) = _
  unfold afterCommas
  split
  · rw [ifNext_token]
    exact outcome_bind rfl fun _ => outcome_bind rfl fun _ => rfl
  · next hcomma => exact (ifNext_of_ne _ _ hcomma).symm

theorem reads_afterCommas
    (hrule : ∀ N, (walk rule).Reads N (spellings spell .univ)) :
    (walk (afterCommas rule)).Reads N (spellings (tokensAfterCommas spell) .univ) := by
  have : Productive (spellings (tokensAfterCommas spell) .univ) := ⟨[], [], trivial, rfl⟩
  induction N with
  | zero => exact .zero
  | succ N ih =>
    rw [walk_afterCommas]
    refine .ifNext ((hrule N).bind fun first => ih.bind fun others => .pure _) ?_ ?_
    · rintro _ ⟨_, ⟨first, -, rfl⟩, _, ⟨_, ⟨others, -, rfl⟩, _, rfl, rfl⟩, rfl⟩
      refine ⟨first :: others, trivial, ?_⟩
      simp [tokensAfterCommas]
    · refine Reads.mono (.pure _) ?_
      rintro _ rfl
      exact ⟨[], trivial, rfl⟩

theorem reads_separated
    (hrule : ∀ N, (walk rule).Reads N (spellings spell .univ)) :
    (walk (separated rule)).Reads N (spellings (separatedTokens spell) {vs | vs ≠ []}) := by
  have hwalk : walk (separated rule) = do
      let first ← walk rule
      let others ← walk (afterCommas rule)
      return first :: others := by
    funext ts
    exact outcome_bind rfl fun _ => outcome_bind rfl fun _ => rfl
  have : Productive (spellings (tokensAfterCommas spell) .univ) := ⟨[], [], trivial, rfl⟩
  rw [hwalk]
  refine ((hrule N).bind fun first => (reads_afterCommas hrule).bind fun others => .pure _).mono ?_
  rintro _ ⟨_, ⟨first, -, rfl⟩, _, ⟨_, ⟨others, -, rfl⟩, _, rfl, rfl⟩, rfl⟩
  exact ⟨first :: others, List.cons_ne_nil _ _, by simp [separatedTokens]⟩

end Reading

/-! Walks over located tokens. -/

namespace Cursor

theorem moveTo_append (taken rest : List Located) (lastLine : Nat) :
    Cursor.moveTo rest.length ⟨taken ++ rest, lastLine⟩ =
      ⟨rest, (taken.getLast?.map (·.line)).getD lastLine⟩ := by
  simp [moveTo]

theorem length_remaining_moveTo (left : Nat) (c : Cursor) :
    (c.moveTo left).remaining.length = min left c.remaining.length := by
  simp only [moveTo, List.length_drop]
  omega

theorem moveTo_length_tokens (c : Cursor) : c.moveTo c.tokens.length = c := by
  simp [moveTo, tokens]

theorem moveTo_of_tokens_eq_cons {c : Cursor} {token : Token} {left : List Token}
    (h : c.tokens = token :: left) : c.moveTo left.length = c.advance ∧ c.peek 0 = some token := by
  obtain ⟨next, rest, hremaining, rfl, rfl⟩ := List.map_eq_cons_iff.mp h
  obtain ⟨_, lastLine⟩ := c
  obtain rfl : _ = next :: rest := hremaining
  rw [List.length_map]
  exact ⟨moveTo_append [next] rest lastLine, rfl⟩

/-- The located tokens are parted where the tokens are. -/
theorem exists_of_tokens_eq_append {c : Cursor} {taken left : List Token}
    (h : c.tokens = taken ++ left) :
    ∃ located, c.remaining = located ++ (c.moveTo left.length).remaining ∧
      located.map (·.token) = taken ∧ (c.moveTo left.length).tokens = left := by
  obtain ⟨located, rest, hremaining, rfl, rfl⟩ := List.map_eq_append_iff.mp h
  obtain ⟨_, lastLine⟩ := c
  obtain rfl : _ = located ++ rest := hremaining
  rw [List.length_map, moveTo_append]
  exact ⟨located, rfl, rfl, rfl⟩

theorem run_eq_ok_iff {α : Type} {bound : List Token → Nat}
    {rule : (ts : List Token) → Reading α (bound ts)} {c stopped : Cursor} {value : α} :
    c.run rule = (.ok value, stopped) ↔
      ∃ left, (rule c.tokens).Gives value left ∧ stopped = c.moveTo left.length := by
  unfold run
  cases rule c.tokens with
  | error failure => simp [Reading.gives_iff_outcome, Reading.outcome]
  | ok parsed => simp [Reading.gives_ok_iff, eq_comm]

theorem exists_of_run_eq_error {α : Type} {bound : List Token → Nat}
    {rule : (ts : List Token) → Reading α (bound ts)} {c stopped : Cursor} {error : CompileError}
    (h : c.run rule = (.error error, stopped)) :
    ∃ construct expected left, Reading.walk rule c.tokens = (.error (construct, expected), left) ∧
      stopped = c.moveTo left.length ∧
      error = .grammatical stopped.line construct expected (stopped.peek 0) := by
  unfold run at h
  cases hread : rule c.tokens with
  | ok parsed =>
    rw [hread] at h
    cases h
  | error failure =>
    rw [hread] at h
    cases h
    refine ⟨failure.construct, failure.expected, failure.rest, ?_, rfl, rfl⟩
    rw [Reading.walk, hread]
    rfl

end Cursor

end Jack
