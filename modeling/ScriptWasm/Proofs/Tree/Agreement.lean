import ScriptWasm.Proofs.Tree.Refusals
import ScriptWasm.Proofs.Tree.Unbounded

/-!
Agreement of a parser without bounds and of one with bounds. On streams that agree up to the first
end of file, both come to the same outcome: they take the same lexemes, none of them an end of file,
or refuse the same one. The rules count the lexemes that have to be taken, so that a loop, or a
parser that starts again inside itself, is left with fewer of them ahead.
-/

namespace ScriptWasm

set_option autoImplicit false

open ScriptWasm.Parser

/-- The front of a list up to its first element with a property, which is included. -/
def throughFirst {Value : Type} (property : Value → Bool) : List Value → List Value
  | [] => []
  | first :: rest => if property first then [first] else first :: throughFirst property rest

section Lists

variable {Value : Type} (property : Value → Bool) (list : List Value)

theorem through_first_head : (throughFirst property list).head? = list.head? := by
  cases list with
  | nil => rfl
  | cons first rest =>
      rw [throughFirst]
      split <;> rfl

theorem through_first_before :
    (throughFirst property list).takeWhile (fun value => !property value) =
      list.takeWhile fun value => !property value := by
  induction list with
  | nil => rfl
  | cons first rest induction =>
      rw [throughFirst]
      split
      · rename_i here
        simp [here]
      · rename_i later
        simp [later, induction]

end Lists

def Lexeme.isEnd (lexeme : Lexeme) : Bool :=
  lexeme.kind = .endOfFile

namespace TokenStream

inductive Reads : TokenStream → List Lexeme → TokenStream → Prop where
  | nothing (stream : TokenStream) : Reads stream [] stream
  | next (stream after : TokenStream) (taken : List Lexeme)
      (going : stream.next.kind ≠ .endOfFile) (rest : Reads stream.past taken after) :
      Reads stream (stream.next :: taken) after

/-- Streams that agree up to the first end of file. -/
structure Alike (first second : TokenStream) : Prop where
  last : first.last = second.last
  rest : throughFirst Lexeme.isEnd first.rest = throughFirst Lexeme.isEnd second.rest

def ahead (stream : TokenStream) : Nat :=
  (stream.rest.takeWhile fun lexeme => !lexeme.isEnd).length

theorem Alike.refl (stream : TokenStream) : stream.Alike stream :=
  ⟨rfl, rfl⟩

theorem next_eq (stream : TokenStream) :
    stream.next = stream.rest.head?.getD ⟨.endOfFile, stream.last, ""⟩ := by
  unfold next
  cases stream.rest <;> rfl

theorem Alike.next {first second : TokenStream} (alike : first.Alike second) :
    first.next = second.next := by
  rw [next_eq, next_eq, alike.last, ← through_first_head Lexeme.isEnd, alike.rest,
    through_first_head]

theorem Alike.ahead {first second : TokenStream} (alike : first.Alike second) :
    first.ahead = second.ahead := by
  unfold TokenStream.ahead
  rw [← through_first_before Lexeme.isEnd first.rest, alike.rest, through_first_before]

theorem past_last (stream : TokenStream) : stream.past.last = stream.next.span := by
  unfold past next
  cases parts : stream.rest with
  | nil => rfl
  | cons lexeme rest => rfl

theorem Alike.past {first second : TokenStream} (alike : first.Alike second)
    (going : first.next.kind ≠ .endOfFile) : first.past.Alike second.past := by
  have goingToo : second.next.kind ≠ .endOfFile := alike.next ▸ going
  refine ⟨by rw [past_last, past_last, alike.next], ?_⟩
  have same := alike.rest
  rw [first.rest_of_next going, second.rest_of_next goingToo, throughFirst, throughFirst,
    if_neg (by simpa [Lexeme.isEnd] using going), if_neg (by simpa [Lexeme.isEnd] using goingToo)]
    at same
  exact (List.cons.inj same).2

theorem ahead_le (stream : TokenStream) : stream.ahead ≤ stream.rest.length :=
  (List.takeWhile_sublist _).length_le

theorem ahead_past {stream : TokenStream} (going : stream.next.kind ≠ .endOfFile) :
    stream.ahead = stream.past.ahead + 1 := by
  unfold ahead
  rw [stream.rest_of_next going, List.takeWhile_cons, if_pos (by simpa [Lexeme.isEnd] using going),
    List.length_cons]

theorem next_of_ahead {stream : TokenStream} (none : stream.ahead = 0) :
    stream.next.kind = .endOfFile := by
  by_contra going
  rw [ahead_past going] at none
  cases none

namespace Reads

variable {before middle after : TokenStream} {taken more : List Lexeme}

theorem one (going : before.next.kind ≠ .endOfFile) : before.Reads [before.next] before.past :=
  .next before before.past [] going (.nothing before.past)

theorem append (first : before.Reads taken middle) (second : middle.Reads more after) :
    before.Reads (taken ++ more) after := by
  induction first with
  | nothing => exact second
  | next stream middle taken going rest induction =>
      exact .next stream after _ going (induction second)

theorem rest_eq (reads : before.Reads taken after) : before.rest = taken ++ after.rest := by
  induction reads with
  | nothing => rfl
  | next stream after taken going rest induction =>
      rw [stream.rest_of_next going, induction, List.cons_append]

theorem going (reads : before.Reads taken after) : ∀ lexeme ∈ taken, lexeme.kind ≠ .endOfFile := by
  induction reads with
  | nothing => exact List.forall_mem_nil _
  | next stream after taken going rest induction => exact List.forall_mem_cons.mpr ⟨going, induction⟩

theorem next_mem (reads : before.Reads taken after) (going : after.next.kind ≠ .endOfFile) :
    after.next ∈ before.rest := by
  rw [reads.rest_eq, after.rest_of_next going]
  exact List.mem_append_right _ List.mem_cons_self

theorem ahead_eq (reads : before.Reads taken after) : before.ahead = after.ahead + taken.length := by
  induction reads with
  | nothing => rfl
  | next stream after taken going rest induction =>
      rw [ahead_past going, induction, List.length_cons, Nat.add_assoc]

theorem unique {after' : TokenStream} (one : before.Reads taken after)
    (other : before.Reads taken after') : after = after' := by
  induction one with
  | nothing =>
      cases other
      rfl
  | next stream after taken going rest induction =>
      cases other with
      | next _ _ _ _ rest' => exact induction rest'

theorem alike {first second first' second' : TokenStream} (one : first.Reads taken first')
    (alike : first.Alike second) (other : second.Reads taken second') :
    first'.Alike second' := by
  induction one generalizing second with
  | nothing =>
      cases other
      exact alike
  | next stream after taken going rest induction =>
      generalize same : stream.next :: taken = whole at other
      cases other with
      | nothing => cases same
      | next second after' taken' going' rest' =>
          rw [(List.cons.inj same).2] at induction
          exact induction (alike.past going) rest'

end Reads

end TokenStream

/-- Outcomes of a parser without bounds and of one with bounds: the same result, after the same
lexemes, of which there are as many as the result needs at least, or the same error, which blames a
lexeme that was reached without taking an end of file. -/
inductive OutcomesAlike {Result : Type} (least : Result → Nat) (first second : TokenStream) :
    Except ParseError (Result × TokenStream) → Except ParseError (Result × TokenStream) → Prop where
  | answers (result : Result) (taken : List Lexeme) (after after' : TokenStream)
      (enough : least result ≤ taken.length) (one : first.Reads taken after)
      (other : second.Reads taken after') :
      OutcomesAlike least first second (.ok (result, after)) (.ok (result, after'))
  | refuses (error : ParseError) (taken : List Lexeme) (stop : TokenStream)
      (reached : second.Reads taken stop) (blames : error.Blames stop.next) :
      OutcomesAlike least first second (.error error) (.error error)

/-- What a run comes to that moves on: it takes no end of file, and as many lexemes as are needed at
least if it succeeds. If it fails, it blames the lexeme to which it came. -/
def MovesOn {Result : Type} (least : Nat) (before : TokenStream) :
    Except ParseError (Result × TokenStream) → Prop
  | .ok (_, after) => ∃ taken, before.Reads taken after ∧ least ≤ taken.length
  | .error error => ∃ taken stop, before.Reads taken stop ∧ error.Blames stop.next

namespace OutcomesAlike

variable {Result : Type} {first second : TokenStream}
  {opened closed : Except ParseError (Result × TokenStream)}

theorem same_answer {least : Result → Nat}
    (alike : OutcomesAlike least first second opened closed) :
    opened.map Prod.fst = closed.map Prod.fst := by
  cases alike <;> rfl

theorem same {least : Result → Nat} (alike : OutcomesAlike least first first opened closed) :
    opened = closed := by
  cases alike with
  | answers result taken after after' enough one other => rw [one.unique other]
  | refuses => rfl

theorem moves_on {least : Nat}
    (alike : OutcomesAlike (fun _ => least) first second opened closed) :
    MovesOn least second closed := by
  cases alike with
  | answers result taken after after' enough one other => exact ⟨taken, other, enough⟩
  | refuses error taken stop reached blames => exact ⟨taken, stop, reached, blames⟩

end OutcomesAlike

/-- Parsers with outcomes that are alike on streams that are alike, where fewer lexemes are ahead
than the bound and the given lexeme comes next. -/
def AgreesAt {Result : Type} (lexeme : Lexeme) (bound : Nat) (least : Result → Nat)
    (wide : Calls → OpenParser Result) (parser : Parser Result) : Prop :=
  ∀ first second : TokenStream, first.Alike second → second.next = lexeme → first.ahead < bound →
    ∃ opened, EndsIn wide first opened ∧
      OutcomesAlike least first second opened (parser.run second)

def Agrees {Result : Type} (bound : Nat) (least : Result → Nat)
    (wide : Calls → OpenParser Result) (parser : Parser Result) : Prop :=
  ∀ lexeme, AgreesAt lexeme bound least wide parser

section Endings

variable {First Second : Type} {wide : Calls → OpenParser First} {stream after : TokenStream}

theorem outcome_bind (parser : OpenParser First) (next : First → OpenParser Second)
    (stream : TokenStream) :
    (parser >>= next).outcome stream =
      match parser.outcome stream with
      | none => none
      | some (.error error) => some (.error error)
      | some (.ok (result, after)) => (next result).outcome after := by
  unfold OpenParser.outcome
  rw [StateT.run_bind, ExceptT.run_bind]
  cases (parser.run stream).run with
  | none => rfl
  | some answer => cases answer <;> rfl

theorem ended_ends_in (parser : Parser First) (stream : TokenStream) :
    EndsIn (fun _ => parser.ended) stream (parser.run stream) :=
  ⟨0, fun _ _ => rfl⟩

theorem EndsIn.unique {one other : Except ParseError (First × TokenStream)}
    (first : EndsIn wide stream one) (second : EndsIn wide stream other) : one = other := by
  obtain ⟨enough, first⟩ := first
  obtain ⟨enough', second⟩ := second
  have same := first (max enough enough') (Nat.le_max_left _ _)
  rw [second _ (Nat.le_max_right _ _)] at same
  exact (Option.some.inj same).symm

theorem ended_bind (parser : Parser First) (next : First → Parser Second) :
    (parser >>= next).ended = parser.ended >>= fun result => (next result).ended := by
  funext stream
  change ((parser >>= next).ended).outcome stream = OpenParser.outcome _ stream
  rw [outcome_bind]
  change some ((parser >>= next).run stream) = match some (parser.run stream) with
    | none => none
    | some (.error error) => some (.error error)
    | some (.ok (result, after)) => some ((next result).run after)
  rw [StateT.run_bind]
  cases parser.run stream with
  | error error => rfl
  | ok answer => rfl

variable {next : Calls → First → OpenParser Second}

theorem ends_in_bind {result : First} {outcome : Except ParseError (Second × TokenStream)}
    (firsts : EndsIn wide stream (.ok (result, after)))
    (nexts : EndsIn (fun calls => next calls result) after outcome) :
    EndsIn (fun calls => wide calls >>= next calls) stream outcome := by
  obtain ⟨enough, first⟩ := firsts
  obtain ⟨enough', second⟩ := nexts
  refine ⟨max enough enough', ?_⟩
  intro depth deep
  rw [outcome_bind, first depth ((Nat.le_max_left _ _).trans deep)]
  exact second depth ((Nat.le_max_right _ _).trans deep)

theorem ends_in_bind_error {error : ParseError} (firsts : EndsIn wide stream (.error error)) :
    EndsIn (fun calls => wide calls >>= next calls) stream (.error error) := by
  obtain ⟨enough, first⟩ := firsts
  refine ⟨enough, ?_⟩
  intro depth deep
  rw [outcome_bind, first depth deep]

/-- A call comes to what it calls, one call deeper. -/
theorem EndsIn.called {outer : Calls → OpenParser First}
    {outcome : Except ParseError (First × TokenStream)} (ends : EndsIn wide stream outcome)
    (calls : ∀ calls, outer (.above calls) = wide calls) : EndsIn outer stream outcome := by
  obtain ⟨enough, ended⟩ := ends
  refine ⟨enough + 1, ?_⟩
  intro depth deep
  cases depth with
  | zero => cases deep
  | succ depth =>
      rw [Calls.upTo, calls]
      exact ended depth (Nat.le_of_succ_le_succ deep)

end Endings

section Logic

variable {First Second : Type} {lexeme : Lexeme} {bound : Nat}

theorem AgreesAt.fewer {least fewer : First → Nat} {wide : Calls → OpenParser First}
    {parser : Parser First} (agrees : AgreesAt lexeme bound least wide parser)
    (needs : ∀ result, fewer result ≤ least result) :
    AgreesAt lexeme bound fewer wide parser := by
  intro first second alike here inside
  obtain ⟨opened, ends, alike⟩ := agrees first second alike here inside
  refine ⟨opened, ends, ?_⟩
  generalize parser.run second = closed at alike
  cases alike with
  | answers result taken after after' enough one other =>
      exact .answers result taken after after' ((needs result).trans enough) one other
  | refuses error taken stop reached blames => exact .refuses error taken stop reached blames

theorem Agrees.within {smaller : Nat} {least : First → Nat} {wide : Calls → OpenParser First}
    {parser : Parser First} (agrees : Agrees bound least wide parser) (less : smaller ≤ bound) :
    Agrees smaller least wide parser :=
  fun lexeme first second alike here inside =>
    agrees lexeme first second alike here (Nat.lt_of_lt_of_le inside less)

/-- What is known where more lexemes are ahead holds where fewer are, whatever has to be taken. -/
theorem Agrees.inside {smaller : Nat} {least : First → Nat} {wide : Calls → OpenParser First}
    {parser : Parser First} (agrees : Agrees bound least wide parser) (less : smaller ≤ bound) :
    Agrees smaller (fun _ => 0) wide parser :=
  fun lexeme => (agrees.within less lexeme).fewer fun _ => Nat.zero_le _

theorem AgreesAt.called {least : First → Nat} {wide outer : Calls → OpenParser First}
    {parser : Parser First} (agrees : AgreesAt lexeme bound least wide parser)
    (calls : ∀ calls, outer (.above calls) = wide calls) :
    AgreesAt lexeme bound least outer parser := by
  intro first second alike here inside
  obtain ⟨opened, ends, alike⟩ := agrees first second alike here inside
  exact ⟨opened, ends.called calls, alike⟩

theorem agrees_at_bind {least : First → Nat} {needed : Second → Nat}
    {wide : Calls → OpenParser First} {parser : Parser First}
    {wideNext : Calls → First → OpenParser Second} {next : First → Parser Second}
    (firsts : AgreesAt lexeme bound least wide parser)
    (nexts : ∀ result, Agrees (bound - least result) (fun answer => needed answer - least result)
      (fun calls => wideNext calls result) (next result)) :
    AgreesAt lexeme bound needed (fun calls => wide calls >>= wideNext calls)
      (parser >>= next) := by
  intro first second alike here inside
  obtain ⟨opened, ends, same⟩ := firsts first second alike here inside
  rw [StateT.run_bind]
  generalize parser.run second = closed at same
  cases same with
  | refuses error taken stop reached blames =>
      exact ⟨_, ends_in_bind_error ends, .refuses error taken stop reached blames⟩
  | answers result taken after after' enough one other =>
      have left := one.ahead_eq
      obtain ⟨opened, ends', same⟩ :=
        nexts result after'.next after after' (one.alike alike other) rfl (by omega)
      refine ⟨opened, ends_in_bind ends ends', ?_⟩
      rw [ok_bind]
      generalize (next result).run after' = closed at same
      cases same with
      | refuses error more stop reached blames =>
          exact .refuses error (taken ++ more) stop (other.append reached) blames
      | answers answer more last last' enough' one' other' =>
          refine .answers answer (taken ++ more) last last' ?_ (one.append one') (other.append other')
          rw [List.length_append]
          omega

theorem agrees_pure (least : First → Nat) (result : First) (none : least result = 0) :
    AgreesAt lexeme bound least (fun _ => pure result) (pure result) := by
  intro first second _ _ _
  refine ⟨.ok (result, first), ⟨0, fun _ _ => rfl⟩, ?_⟩
  exact .answers result [] first second (by simp [none]) (.nothing first) (.nothing second)

theorem agrees_seeing {needed : Second → Nat} {wideNext : Calls → Lexeme → OpenParser Second}
    {next : Lexeme → Parser Second}
    (nexts : AgreesAt lexeme bound needed (fun calls => wideNext calls lexeme) (next lexeme)) :
    AgreesAt lexeme bound needed (fun calls => peek.ended >>= wideNext calls) (peek >>= next) := by
  intro first second alike here inside
  obtain ⟨opened, ends, same⟩ := nexts first second alike here inside
  refine ⟨opened, ?_, ?_⟩
  · have looked := ended_ends_in peek first
    rw [peek_run, alike.next, here] at looked
    exact ends_in_bind looked ends
  · rw [StateT.run_bind, peek_run, ok_bind, here]
    exact same

end Logic

/-! ### Single steps -/

section Steps

variable {lexeme : Lexeme} {bound : Nat} {Result : Type}

abbrev SteadyAt (lexeme : Lexeme) (bound : Nat) (least : Result → Nat) (parser : Parser Result) :
    Prop :=
  AgreesAt lexeme bound least (fun _ => parser.ended) parser

abbrev Steady (bound : Nat) (least : Result → Nat) (parser : Parser Result) : Prop :=
  Agrees bound least (fun _ => parser.ended) parser

theorem steady_at_take (going : lexeme.kind ≠ .endOfFile) (kind : NodeKind) :
    SteadyAt lexeme bound (fun _ => 1) (take kind) := by
  intro first second alike here _
  refine ⟨_, ended_ends_in _ first, ?_⟩
  rw [take_run, take_run, alike.next]
  have goingToo : second.next.kind ≠ .endOfFile := by rwa [here]
  have one := TokenStream.Reads.one (alike.next ▸ goingToo)
  rw [alike.next] at one
  exact .answers _ [second.next] _ _ (le_refl 1) one (.one goingToo)

theorem steady_at_advance (going : lexeme.kind ≠ .endOfFile) :
    SteadyAt lexeme bound (fun _ => 1) advance := by
  intro first second alike here _
  refine ⟨_, ended_ends_in _ first, ?_⟩
  rw [advance_run, advance_run]
  have goingToo : second.next.kind ≠ .endOfFile := by rwa [here]
  have one := TokenStream.Reads.one (alike.next ▸ goingToo)
  rw [alike.next] at one
  exact .answers _ [second.next] _ _ (le_refl 1) one (.one goingToo)

/-- A parser that refuses the next lexeme. -/
theorem steady_refusal {parser : Parser Result} (least : Result → Nat) (error : ParseError)
    (refuses : ∀ stream : TokenStream, stream.next = lexeme → parser.run stream = .error error)
    (blames : error.Blames lexeme) : SteadyAt lexeme bound least parser := by
  intro first second alike here _
  refine ⟨_, ended_ends_in _ first, ?_⟩
  rw [refuses first (alike.next.trans here), refuses second here]
  exact .refuses _ [] second (.nothing second) (here ▸ blames)

theorem agrees_after_refusal {First Second : Type} {parser : Parser First}
    (least : Second → Nat) (error : ParseError)
    (refuses : ∀ stream : TokenStream, stream.next = lexeme → parser.run stream = .error error)
    (blames : error.Blames lexeme) (wideNext : Calls → First → OpenParser Second)
    (next : First → Parser Second) :
    AgreesAt lexeme bound least (fun calls => parser.ended >>= wideNext calls)
      (parser >>= next) := by
  intro first second alike here _
  have ends := ended_ends_in parser first
  rw [refuses first (alike.next.trans here)] at ends
  refine ⟨_, ends_in_bind_error ends, ?_⟩
  rw [StateT.run_bind, refuses second here]
  exact .refuses _ [] second (.nothing second) (here ▸ blames)

theorem unexpected_at (what : Expected) (stream : TokenStream) (here : stream.next = lexeme) :
    (unexpected what : Parser Result).run stream = .error (refusal what lexeme) := by
  rw [unexpected_run, here]

theorem steady_unexpected (least : Result → Nat) (what : Expected) :
    Steady bound least (unexpected what : Parser Result) := by
  intro lexeme
  exact steady_refusal least _ (unexpected_at what) (refusal_blames what lexeme)

variable {First Second : Type}

theorem steady_bind {least : First → Nat} {needed : Second → Nat} {parser : Parser First}
    {next : First → Parser Second} (firsts : SteadyAt lexeme bound least parser)
    (nexts : ∀ result, Steady (bound - least result) (fun answer => needed answer - least result)
      (next result)) : SteadyAt lexeme bound needed (parser >>= next) := by
  unfold SteadyAt
  rw [ended_bind]
  exact agrees_at_bind firsts nexts

theorem steady_seeing {needed : Second → Nat} {next : Lexeme → Parser Second}
    (nexts : SteadyAt lexeme bound needed (next lexeme)) :
    SteadyAt lexeme bound needed (peek >>= next) := by
  unfold SteadyAt
  rw [ended_bind]
  exact agrees_seeing nexts

theorem steady_pure (least : First → Nat) (result : First) (none : least result = 0) :
    SteadyAt lexeme bound least (pure result) :=
  agrees_pure least result none

theorem steady_expect (token : TokenKind) (kind : NodeKind) (going : token ≠ .endOfFile) :
    Steady bound (fun _ => 1) (expect token kind) := by
  intro lexeme
  apply steady_seeing
  split
  · rename_i here
    exact steady_at_take (here ▸ going) kind
  · exact steady_unexpected _ _ lexeme

theorem steady_expect_name : Steady bound (fun _ => 1) expectName := by
  intro lexeme
  apply steady_seeing
  split
  · rename_i here
    exact steady_at_take (by rw [here]; decide) _
  · exact steady_unexpected _ _ lexeme

/-- A parser that may answer nothing takes a lexeme where it answers something. -/
def ifSome (answer : Option Result) : Nat :=
  match answer with
  | none => 0
  | some _ => 1

theorem steady_taking (going : lexeme.kind ≠ .endOfFile) (kind : NodeKind) (make : Tree → Tree) :
    SteadyAt lexeme bound ifSome (do return some (make (← take kind))) := by
  apply steady_bind (steady_at_take going kind)
  intro tree lexeme
  exact steady_pure _ _ rfl

theorem steady_take_if (token : TokenKind) (kind : NodeKind) (going : token ≠ .endOfFile) :
    Steady bound ifSome (takeIf token kind) := by
  intro lexeme
  apply steady_seeing
  split
  · rename_i here
    exact steady_taking (here ▸ going) kind id
  · exact steady_pure _ _ rfl

theorem steady_operator_among (kinds : List TokenKind) (going : .endOfFile ∉ kinds) :
    Steady bound ifSome (operatorAmong kinds) := by
  intro lexeme
  apply steady_seeing
  split
  · rename_i member
    have among : lexeme.kind ∈ kinds := List.contains_iff_mem.mp member
    exact steady_taking (fun isEnd => going (isEnd ▸ among)) _ id
  · exact steady_pure _ _ rfl

theorem steady_at_word {needed : Second → Nat} {next : Bool → Parser Second} (word : String)
    (nexts : SteadyAt lexeme bound needed (next (lexeme.kind = .name && lexeme.text = word))) :
    SteadyAt lexeme bound needed (atWord word >>= next) := by
  rw [atWord, bind_assoc]
  apply steady_seeing
  rw [pure_bind]
  exact nexts

/-- A lexeme that is the given word is no end of file. -/
theorem going_of_word {word : String} (isWord : (lexeme.kind = .name && lexeme.text = word) = true) :
    lexeme.kind ≠ .endOfFile := by
  intro isEnd
  rw [isEnd] at isWord
  cases isWord

theorem steady_operator_word (word : String) : Steady bound ifSome (operatorWord word) := by
  intro lexeme
  apply steady_at_word
  split
  · rename_i isWord
    exact steady_taking (going_of_word isWord) _ id
  · exact steady_pure _ _ rfl

theorem steady_comparison_operator : Steady bound ifSome comparisonOperator := by
  have second (first : Tree) (lexeme : Lexeme) (going : lexeme.kind ≠ .endOfFile) :
      SteadyAt lexeme (bound - 1) (fun answer => ifSome answer - 1) (do
        let second ← take .operator
        return some (Tree.leaf .operator (first.span.through second.span))) := by
    apply AgreesAt.fewer
    · exact steady_taking going .operator fun second =>
        .leaf .operator (first.span.through second.span)
    · exact fun answer => Nat.sub_le _ _
  intro lexeme
  apply steady_seeing
  split
  · rename_i member
    have among := List.contains_iff_mem.mp member
    exact steady_taking (fun isEnd => by rw [isEnd] at among; exact absurd among (by decide)) _ id
  apply steady_at_word
  split
  · rename_i isIn
    exact steady_taking (going_of_word isIn) _ id
  apply steady_at_word
  split
  · rename_i isIs
    apply steady_bind (steady_at_take (going_of_word isIs) _)
    intro first lexeme
    apply steady_at_word
    split
    · rename_i isNot
      exact second first lexeme (going_of_word isNot)
    · exact steady_pure _ _ rfl
  apply steady_at_word
  split
  · rename_i isNot
    apply steady_bind (steady_at_take (going_of_word isNot) _)
    intro first lexeme
    apply steady_at_word
    split
    · rename_i isIn
      exact second first lexeme (going_of_word isIn)
    · apply steady_refusal _ ⟨.notWithoutIn, lexeme.span⟩
      · intro stream here
        rw [StateT.run_bind, peek_run, ok_bind, here]
        rfl
      · exact ⟨rfl, trivial⟩
  · exact steady_pure _ _ rfl

theorem steady_end_of_statement : Steady bound (fun _ => 0) endOfStatement := by
  intro lexeme
  apply steady_seeing
  split
  · rename_i here
    exact (steady_at_advance (by rw [here]; decide)).fewer fun _ => Nat.zero_le _
  · exact steady_pure _ _ rfl
  · exact steady_pure _ _ rfl
  · exact steady_unexpected _ _ lexeme

theorem steady_type_after (mark : TokenKind) (going : mark ≠ .endOfFile) :
    Steady bound (fun _ => 1) (typeAfter mark) := by
  intro lexeme
  apply steady_bind (steady_expect mark _ going lexeme)
  intro sign lexeme
  have ended (kind : NodeKind) (going : lexeme.kind ≠ .endOfFile) :
      SteadyAt lexeme (bound - 1) (fun _ => 1 - 1)
        (do return Tree.branch .typeDef [sign, ← take kind]) := by
    apply steady_bind (steady_at_take going kind)
    intro tree lexeme
    exact steady_pure _ _ rfl
  apply steady_seeing
  split
  · rename_i here
    exact ended _ (by rw [here]; decide)
  · rename_i here
    exact ended _ (by rw [here]; decide)
  · exact steady_unexpected _ _ lexeme

theorem steady_type_if (mark : TokenKind) (going : mark ≠ .endOfFile) :
    Steady bound (fun _ => 0) (typeIf mark) := by
  intro lexeme
  apply steady_seeing
  split
  · apply steady_bind (steady_type_after mark going lexeme)
    intro tree lexeme
    exact steady_pure _ _ rfl
  · exact steady_pure _ _ rfl

theorem steady_keyword_statement (kind : NodeKind) (going : lexeme.kind ≠ .endOfFile) :
    SteadyAt lexeme bound (fun _ => 1) (keywordStatement kind) := by
  apply steady_bind (steady_at_take going _)
  intro keyword lexeme
  apply steady_bind (steady_end_of_statement lexeme)
  intro _ lexeme
  exact steady_pure _ _ rfl

end Steps

/-! ### Loops -/

section Loops

variable {bound : Nat}

/-- No stream has fewer lexemes ahead than none. -/
theorem agrees_nowhere {Result : Type} (least : Result → Nat) (wide : Calls → OpenParser Result)
    (parser : Parser Result) : Agrees 0 least wide parser :=
  fun _ _ _ _ _ inside => absurd inside (Nat.not_lt_zero _)

/-- What takes a bound from the length of the stream is given one that is great enough. -/
theorem agrees_remaining {Result : Type} {least : Result → Nat}
    {wide : Calls → OpenParser Result} {parser : Nat → Parser Result}
    (agrees : ∀ smaller count, smaller ≤ bound → smaller ≤ count + 1 →
      Agrees smaller least wide (parser count)) :
    Agrees bound least wide (remaining >>= parser) := by
  intro lexeme first second alike here inside
  rw [StateT.run_bind, remaining_run, ok_bind]
  apply agrees (first.ahead + 1) _ inside _ lexeme first second alike here (Nat.lt_succ_self _)
  rw [alike.ahead]
  exact Nat.succ_le_succ second.ahead_le

section Extending

variable (loop : Tree → Calls → OpenParser Tree) {wide : Tree → Calls → OpenParser (Option Tree)}
  {step : Tree → Parser (Option Tree)}
  (unfolds : ∀ tree calls, loop tree (.above calls) = wide tree calls >>= fun answer =>
    match answer with
    | none => pure tree
    | some larger => loop larger calls)

include unfolds

theorem extend_up_to_agrees (steps : ∀ tree, Agrees bound ifSome (wide tree) (step tree))
    (count : Nat) (enough : bound ≤ count) (tree : Tree) :
    Agrees bound (fun _ => 0) (loop tree) (extendUpTo step count tree) := by
  induction count generalizing bound tree with
  | zero =>
      rw [Nat.le_zero.mp enough]
      exact agrees_nowhere _ _ _
  | succ count induction =>
      rw [extendUpTo]
      intro lexeme
      apply AgreesAt.called _ (unfolds tree)
      apply agrees_at_bind (steps tree lexeme)
      intro answer lexeme
      cases answer with
      | none => exact agrees_pure _ tree rfl
      | some larger =>
          apply induction
          · exact fun tree => (steps tree).within (Nat.sub_le _ _)
          · exact Nat.sub_le_of_le_add enough

theorem extended_agrees (steps : ∀ tree, Agrees bound ifSome (wide tree) (step tree))
    (tree : Tree) : Agrees bound (fun _ => 0) (loop tree) (extended step tree) := by
  apply agrees_remaining
  intro smaller count less enough
  apply extend_up_to_agrees loop unfolds _ _ enough
  exact fun tree => (steps tree).within less

end Extending

section Repeating

variable (loop : Calls → OpenParser (List Tree)) {wide : Calls → OpenParser (Option (List Tree))}
  {step : Parser (Option (List Tree))}
  (unfolds : ∀ calls, loop (.above calls) = wide calls >>= fun answer =>
    match answer with
    | none => pure []
    | some items => do return items ++ (← loop calls))

include unfolds

theorem repeat_up_to_agrees (steps : Agrees bound ifSome wide step) (count : Nat)
    (enough : bound ≤ count) : Agrees bound (fun _ => 0) loop (repeatUpTo step count) := by
  induction count generalizing bound with
  | zero =>
      rw [Nat.le_zero.mp enough]
      exact agrees_nowhere _ _ _
  | succ count induction =>
      rw [repeatUpTo]
      intro lexeme
      apply AgreesAt.called _ unfolds
      apply agrees_at_bind (steps lexeme)
      intro answer lexeme
      cases answer with
      | none => exact agrees_pure _ _ rfl
      | some items =>
          have others := induction (steps.within (Nat.sub_le bound 1))
            (Nat.sub_le_of_le_add enough)
          apply agrees_at_bind (others lexeme)
          intro more lexeme
          exact agrees_pure _ _ rfl

theorem repeated_agrees (steps : Agrees bound ifSome wide step) :
    Agrees bound (fun _ => 0) loop (repeated step) := by
  apply agrees_remaining
  intro smaller count less enough
  exact repeat_up_to_agrees loop unfolds (steps.within less) _ enough

end Repeating

section Listing

variable (loop : Calls → OpenParser (List Tree)) {wide : Calls → OpenParser (List Tree)}
  {item : Parser (List Tree)}
  (unfolds : ∀ calls, loop (.above calls) = do
    if (← peek.ended).kind = .rightParen then return []
    let parts ← wide calls
    match ← (takeIf .comma .punctuation).ended with
    | none => return parts
    | some comma => return parts ++ comma :: (← loop calls))

include unfolds

theorem listed_agrees (items : Agrees bound (fun _ => 1) wide item) (count : Nat)
    (enough : bound ≤ count) :
    Agrees bound (fun _ => 0) loop (parenthesized.listed item count) := by
  induction count generalizing bound with
  | zero =>
      rw [Nat.le_zero.mp enough]
      exact agrees_nowhere _ _ _
  | succ count induction =>
      rw [parenthesized.listed]
      intro lexeme
      apply AgreesAt.called _ unfolds
      apply agrees_seeing
      split
      · exact agrees_pure _ _ rfl
      · apply agrees_at_bind (items lexeme)
        intro parts lexeme
        apply agrees_at_bind (steady_take_if _ _ (by decide) lexeme)
        intro comma lexeme
        cases comma with
        | none => exact agrees_pure _ _ rfl
        | some comma =>
            have others := induction
              (items.within ((Nat.sub_le _ _).trans (Nat.sub_le bound 1)))
              ((Nat.sub_le _ 1).trans (Nat.sub_le_of_le_add enough))
            apply agrees_at_bind (others lexeme)
            intro more lexeme
            exact agrees_pure _ _ rfl

/-- A list between parentheses. Its items start after the opening parenthesis. -/
theorem parenthesized_agrees (kind : NodeKind)
    (items : Agrees (bound - 1) (fun _ => 1) wide item) :
    Agrees bound (fun _ => 1)
      (fun calls => do
        let opening ← (expect .leftParen .punctuation).ended
        let items ← loop calls
        let closing ← (expect .rightParen .punctuation).ended
        return .branch kind (opening :: items ++ [closing]))
      (parenthesized kind item) := by
  intro lexeme
  apply agrees_at_bind (steady_expect _ _ (by decide) lexeme)
  intro opening
  apply agrees_remaining
  intro smaller count less enough lexeme
  apply agrees_at_bind (listed_agrees loop unfolds (items.within less) _ enough lexeme)
  intro parts lexeme
  apply agrees_at_bind ((steady_expect _ _ (by decide) lexeme).fewer fun _ => Nat.zero_le _)
  intro closing lexeme
  exact agrees_pure _ _ rfl

end Listing

end Loops

end ScriptWasm
