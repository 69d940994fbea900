import RecordLang.Proofs.Token.Relexed
import RecordLang.Proofs.Token.Words
import RecordLang.Proofs.Ty.Names

/-!
# Types by their texts

The text of a type tells which type it is, if the names in it are words (`Ty.render_inj`). A text is
read from the front: whatever follows it, as long as that cannot go on with a name or mark it as
optional (`Text.EndsName`), there is only one type whose text stands there (`Ty.Spelled.toldApart`).
Parameters and fields stand in lists with commas, which are read item by item (`Text.read_listed`).
-/

namespace RecordLang

/-! ### Reading from the front -/

namespace Text

variable {α : Type} {rest rest' : List Char}

/-- Neither a name nor the mark of an optional type goes on here. -/
def EndsName (rest : List Char) : Prop := ∀ c ∈ rest.head?, isNamePart c = false ∧ c ≠ '?'

theorem endsName_nil : EndsName [] := by simp [EndsName]

theorem endsName_cons {c : Char} (h : isNamePart c = false) (hc : c ≠ '?') :
    EndsName (c :: rest) := by
  rintro _ ⟨⟩
  exact ⟨h, hc⟩

/-- Runs of a class that end at characters of another one are told apart from what follows. -/
theorem append_inj_of_stop {p : Char → Bool} {run run' : List Char}
    (hrun : ∀ c ∈ run, p c = true) (hrun' : ∀ c ∈ run', p c = true)
    (hrest : ∀ c ∈ rest.head?, p c = false) (hrest' : ∀ c ∈ rest'.head?, p c = false)
    (h : run ++ rest = run' ++ rest') : run = run' ∧ rest = rest' := by
  obtain ⟨htake, hdrop⟩ := Lexer.span_of_stops hrun hrest
  obtain ⟨htake', hdrop'⟩ := Lexer.span_of_stops hrun' hrest'
  rw [h] at htake hdrop
  exact ⟨htake.symm.trans htake', hdrop.symm.trans hdrop'⟩

/-- The texts of some items, with a comma and a blank between them. -/
def listed (texts : List (List Char)) : List Char := [',', ' '].intercalate texts

theorem listed_singleton (text : List Char) : listed [text] = text := List.intercalate_singleton

theorem listed_cons (text next : List Char) (texts : List (List Char)) :
    listed (text :: next :: texts) = text ++ ',' :: ' ' :: listed (next :: texts) := by
  rw [listed, List.intercalate_cons_cons, List.append_assoc]
  rfl

/-- A list of items with its closing mark is read in one way, if the items are, and none of them
begins with the mark. -/
theorem read_listed {text : α → List Char} {close : Char} {as bs : List α}
    (hpart : isNamePart close = false) (hclose : close ≠ '?' ∧ close ≠ ',')
    (hread : ∀ a ∈ as, ∀ b ∈ bs, ∀ rest rest', EndsName rest → EndsName rest' →
      text a ++ rest = text b ++ rest' → a = b ∧ rest = rest')
    (hbegins : ∀ a ∈ as ++ bs, ∃ c cs, text a = c :: cs ∧ c ≠ close)
    (h : listed (as.map text) ++ close :: rest = listed (bs.map text) ++ close :: rest') :
    as = bs ∧ rest = rest' := by
  -- a list that is not empty does not begin like an empty one
  have hmark : ∀ {a : α} {as : List α} {r r' : List Char},
      (∃ c cs, text a = c :: cs ∧ c ≠ close) →
      listed ((a :: as).map text) ++ close :: r ≠ close :: r' := by
    rintro a as r r' ⟨c, cs, ha, hc⟩ he
    cases as with
    | nil =>
      rw [List.map_singleton, listed_singleton, ha] at he
      exact hc (List.cons.inj he).1
    | cons b as =>
      rw [List.map_cons, List.map_cons, listed_cons, ha] at he
      exact hc (List.cons.inj he).1
  have hcloses : ∀ r, EndsName (close :: r) := fun r => endsName_cons hpart hclose.1
  have hcomma : ∀ r, EndsName (',' :: r) := fun r => endsName_cons rfl (by decide)
  induction as generalizing bs with
  | nil =>
    cases bs with
    | nil => exact ⟨rfl, (List.cons.inj h).2⟩
    | cons b bs => exact absurd h.symm (hmark (hbegins b (by simp)))
  | cons a as ih =>
    cases bs with
    | nil => exact absurd h (hmark (hbegins a (by simp)))
    | cons b bs =>
      have hfirst := hread a List.mem_cons_self b List.mem_cons_self
      have hmore : listed (as.map text) ++ close :: rest = listed (bs.map text) ++ close :: rest' →
          as = bs ∧ rest = rest' := by
        refine ih (fun a' ha b' hb => hread a' (List.mem_cons_of_mem _ ha) b'
          (List.mem_cons_of_mem _ hb)) (fun a' ha => hbegins a' ?_)
        rcases List.mem_append.mp ha with ha | ha <;> simp [ha]
      cases as with
      | nil =>
        cases bs with
        | nil =>
          rw [List.map_singleton, List.map_singleton, listed_singleton, listed_singleton] at h
          obtain ⟨rfl, he⟩ := hfirst _ _ (hcloses _) (hcloses _) h
          exact ⟨rfl, (List.cons.inj he).2⟩
        | cons b' bs =>
          rw [List.map_singleton, listed_singleton, List.map_cons, List.map_cons, listed_cons,
            List.append_assoc] at h
          obtain ⟨-, he⟩ := hfirst _ _ (hcloses _) (hcomma _) h
          exact absurd (List.cons.inj he).1 hclose.2
      | cons a' as =>
        cases bs with
        | nil =>
          rw [List.map_singleton, listed_singleton, List.map_cons, List.map_cons, listed_cons,
            List.append_assoc] at h
          obtain ⟨-, he⟩ := hfirst _ _ (hcomma _) (hcloses _) h
          exact absurd (List.cons.inj he).1.symm hclose.2
        | cons b' bs =>
          rw [List.map_cons, List.map_cons, List.map_cons, List.map_cons, listed_cons, listed_cons,
            List.append_assoc, List.append_assoc] at h
          obtain ⟨rfl, he⟩ := hfirst _ _ (hcomma _) (hcomma _) h
          obtain ⟨has, hrest⟩ := hmore (List.cons.inj (List.cons.inj he).2).2
          exact ⟨congrArg (a :: ·) has, hrest⟩

end Text

/-! ### Texts of types -/

namespace Ty

open Text (EndsName listed)

variable {t u : Ty} {rest rest' : List Char}

/-- The names of types and of fields in the type are words. -/
inductive Spelled : Ty → Prop
  | named {name : String} (optional : Bool) (word : isWord name = true) :
      Spelled (.named name optional)
  | function {params : List Ty} {result : Ty} (inParams : ∀ t ∈ params, Spelled t)
      (inResult : Spelled result) : Spelled (.function params result)
  | record {fields : List (String × Ty)} (words : ∀ f ∈ fields, isWord f.1 = true)
      (inFields : ∀ f ∈ fields, Spelled f.2) : Spelled (.record fields)

/-- The characters of a field with its type. -/
def fieldChars (f : String × Ty) : List Char := f.1.toList ++ ':' :: ' ' :: f.2.render.toList

theorem toList_render_named (name : String) (optional : Bool) :
    (named name optional).render.toList = name.toList ++ if optional then ['?'] else [] := by
  cases optional with
  | true => exact String.toList_append
  | false => exact (List.append_nil _).symm

theorem toList_renderAll (ts : List Ty) :
    (renderAll ts).toList = listed (ts.map fun t => t.render.toList) := by
  induction ts with
  | nil => rfl
  | cons t ts ih =>
    cases ts with
    | nil => exact (Text.listed_singleton _).symm
    | cons t' ts =>
      rw [renderAll, String.toList_append, String.toList_append, ih, List.map_cons, List.map_cons,
        List.map_cons, Text.listed_cons, List.append_assoc]
      · rfl
      · simp

theorem toList_renderFields (fs : List (String × Ty)) :
    (renderFields fs).toList = listed (fs.map fieldChars) := by
  induction fs with
  | nil => rfl
  | cons f fs ih =>
    obtain ⟨n, t⟩ := f
    have hfirst : (n ++ ": " ++ t.render).toList = fieldChars (n, t) := by
      rw [String.toList_append, String.toList_append, List.append_assoc]
      rfl
    cases fs with
    | nil => rw [renderFields, hfirst, List.map_singleton, Text.listed_singleton]
    | cons f' fs =>
      rw [renderFields, String.toList_append, String.toList_append, hfirst, ih, List.map_cons,
        List.map_cons, List.map_cons, Text.listed_cons, List.append_assoc]
      · rfl
      · simp

theorem toList_render_function (params : List Ty) (result : Ty) :
    (function params result).render.toList = '(' :: (listed (params.map fun t => t.render.toList) ++
      ')' :: ' ' :: '-' :: '>' :: ' ' :: result.render.toList) := by
  rw [render, String.toList_append, String.toList_append, String.toList_append, toList_renderAll,
    List.append_assoc, List.append_assoc]
  rfl

theorem toList_render_record (f : String × Ty) (fs : List (String × Ty)) :
    (record (f :: fs)).render.toList =
      '\x7b' :: ' ' :: (listed ((f :: fs).map fieldChars) ++ [' ', '\x7d']) := by
  rw [render, String.toList_append, String.toList_append, toList_renderFields, List.append_assoc]
  rfl

/-- What the text of a type begins with: a name, or one of two marks. -/
def Opens (c : Char) : Ty → Prop
  | named .. => isNamePart c = true
  | function .. => c = '('
  | record .. => c = '\x7b'

theorem Spelled.begins (h : t.Spelled) : ∃ c cs, t.render.toList = c :: cs ∧ t.Opens c := by
  cases h with
  | @named name optional word =>
    obtain ⟨c, cs, hname, -, hparts⟩ := exists_of_isWord word
    rw [toList_render_named, hname]
    exact ⟨c, _, rfl, hparts c List.mem_cons_self⟩
  | function _ _ =>
    rw [toList_render_function]
    exact ⟨_, _, rfl, rfl⟩
  | @record fields _ _ =>
    cases fields with
    | nil => exact ⟨_, _, rfl, rfl⟩
    | cons f fs =>
      rw [toList_render_record]
      exact ⟨_, _, rfl, rfl⟩

/-- No text of a type begins with what is neither part of a name nor one of the two marks. -/
theorem Opens.ne {c d : Char} (h : t.Opens c) (hpart : isNamePart d = false) (hparen : d ≠ '(')
    (hbrace : d ≠ '\x7b') : c ≠ d := by
  rintro rfl
  cases t with
  | named => exact Bool.false_ne_true (hpart.symm.trans h)
  | function => exact hparen h
  | record => exact hbrace h

/-- A name is read up to where it stops. -/
theorem read_name {name name' : String} (h : isWord name = true) (h' : isWord name' = true)
    (hrest : ∀ c ∈ rest.head?, isNamePart c = false)
    (hrest' : ∀ c ∈ rest'.head?, isNamePart c = false)
    (he : name.toList ++ rest = name'.toList ++ rest') : name = name' ∧ rest = rest' := by
  obtain ⟨c, cs, hname, -, hparts⟩ := exists_of_isWord h
  obtain ⟨c', cs', hname', -, hparts'⟩ := exists_of_isWord h'
  rw [← hname] at hparts
  rw [← hname'] at hparts'
  obtain ⟨hnames, hrests⟩ := Text.append_inj_of_stop hparts hparts' hrest hrest' he
  exact ⟨String.toList_inj.mp hnames, hrests⟩

/-- Whatever follows, a text that both types have at its front says that they are the same, and ends
in one place. -/
def ToldApart (t u : Ty) : Prop := ∀ rest rest', EndsName rest → EndsName rest' →
  t.render.toList ++ rest = u.render.toList ++ rest' → t = u ∧ rest = rest'

theorem toldApart_named {name name' : String} {optional optional' : Bool} (h : isWord name = true)
    (h' : isWord name' = true) : ToldApart (named name optional) (named name' optional') := by
  intro rest rest' hrest hrest' he
  have hmark : ∀ {o : Bool} {r : List Char}, EndsName r →
      ∀ c ∈ ((if o then ['?'] else []) ++ r).head?, isNamePart c = false := by
    intro o r hr c hc
    cases o with
    | true =>
      cases hc
      rfl
    | false => exact (hr c hc).1
  rw [toList_render_named, toList_render_named, List.append_assoc, List.append_assoc] at he
  obtain ⟨rfl, hmarks⟩ := read_name h h' (hmark hrest) (hmark hrest') he
  cases optional with
  | true =>
    cases optional' with
    | true => exact ⟨rfl, (List.cons.inj hmarks).2⟩
    | false =>
      have hr : '?' :: rest = rest' := hmarks
      rw [← hr] at hrest'
      have hmark := hrest' '?' rfl
      exact absurd rfl hmark.2
  | false =>
    cases optional' with
    | true =>
      have hr : rest = '?' :: rest' := hmarks
      rw [hr] at hrest
      exact absurd rfl (hrest '?' rfl).2
    | false => exact ⟨rfl, hmarks⟩

theorem toldApart_function {params params' : List Ty} {result result' : Ty}
    (hspelled : ∀ t ∈ params ++ params', t.Spelled)
    (hparams : ∀ t ∈ params, ∀ u ∈ params', ToldApart t u) (hresult : ToldApart result result') :
    ToldApart (function params result) (function params' result') := by
  intro rest rest' hrest hrest' he
  have hbegins : ∀ t ∈ params ++ params', ∃ c cs, t.render.toList = c :: cs ∧ c ≠ ')' := by
    intro t ht
    obtain ⟨c, cs, htext, hc⟩ := (hspelled t ht).begins
    exact ⟨c, cs, htext, hc.ne rfl (by decide) (by decide)⟩
  rw [toList_render_function, toList_render_function, List.cons_append, List.cons_append,
    List.append_assoc, List.append_assoc] at he
  obtain ⟨rfl, harrow⟩ := Text.read_listed rfl (by decide) hparams hbegins (List.cons.inj he).2
  have hresults : result.render.toList ++ rest = result'.render.toList ++ rest' :=
    List.append_cancel_left (show [' ', '-', '>', ' '] ++ _ = _ from harrow)
  obtain ⟨rfl, hrests⟩ := hresult rest rest' hrest hrest' hresults
  exact ⟨rfl, hrests⟩

theorem read_field {f f' : String × Ty} (h : isWord f.1 = true) (h' : isWord f'.1 = true)
    (htype : ToldApart f.2 f'.2) (hrest : EndsName rest) (hrest' : EndsName rest')
    (he : fieldChars f ++ rest = fieldChars f' ++ rest') : f = f' ∧ rest = rest' := by
  have hcolon : ∀ {r : List Char}, ∀ c ∈ (':' :: r).head?, isNamePart c = false := by
    rintro r _ ⟨⟩
    rfl
  rw [fieldChars, fieldChars, List.append_assoc, List.append_assoc] at he
  obtain ⟨hname, he⟩ := read_name h h' hcolon hcolon he
  obtain ⟨hty, hrests⟩ := htype rest rest' hrest hrest' (List.cons.inj (List.cons.inj he).2).2
  exact ⟨Prod.ext hname hty, hrests⟩

theorem toldApart_record {fields fields' : List (String × Ty)}
    (hwords : ∀ f ∈ fields ++ fields', isWord f.1 = true)
    (htypes : ∀ f ∈ fields, ∀ f' ∈ fields', ToldApart f.2 f'.2) :
    ToldApart (record fields) (record fields') := by
  intro rest rest' hrest hrest' he
  -- a record without fields has no blank behind its mark
  have hopen : ∀ {r r' : List Char}, '\x7b' :: '\x7d' :: r ≠ '\x7b' :: ' ' :: r' := by
    intro r r' h
    exact absurd (List.cons.inj (List.cons.inj h).2).1 (by decide)
  cases fields with
  | nil =>
    cases fields' with
    | nil => exact ⟨rfl, (List.cons.inj (List.cons.inj he).2).2⟩
    | cons f' fs' =>
      rw [toList_render_record] at he
      exact absurd he hopen
  | cons f fs =>
    rw [toList_render_record] at he
    cases fields' with
    | nil => exact absurd he.symm hopen
    | cons f' fs' =>
      have hbegins : ∀ g ∈ f :: fs ++ f' :: fs', ∃ c cs, fieldChars g = c :: cs ∧ c ≠ ' ' := by
        intro g hg
        obtain ⟨c, cs, hname, -, hparts⟩ := exists_of_isWord (hwords g hg)
        rw [fieldChars, hname]
        refine ⟨c, _, rfl, ?_⟩
        rintro rfl
        cases hparts ' ' List.mem_cons_self
      rw [toList_render_record, List.cons_append, List.cons_append, List.cons_append,
        List.cons_append, List.append_assoc, List.append_assoc] at he
      have hread : ∀ g ∈ f :: fs, ∀ g' ∈ f' :: fs', ∀ r r', EndsName r → EndsName r' →
          fieldChars g ++ r = fieldChars g' ++ r' → g = g' ∧ r = r' := by
        intro g hg g' hg' r r'
        exact read_field (hwords g (List.mem_append_left _ hg))
          (hwords g' (List.mem_append_right _ hg')) (htypes g hg g' hg')
      obtain ⟨hfields, hclose⟩ := Text.read_listed rfl (by decide) hread hbegins
        (List.cons.inj (List.cons.inj he).2).2
      exact ⟨by rw [hfields], (List.cons.inj hclose).2⟩

/-- The text of a type at the front tells the type, and where it ends. -/
theorem Spelled.toldApart (ht : t.Spelled) (hu : u.Spelled) : ToldApart t u := by
  -- types of two shapes do not begin alike
  have hopens : ∀ {t u : Ty}, t.Spelled → u.Spelled → (∀ c, t.Opens c → ¬ u.Opens c) →
      ToldApart t u := by
    intro t u ht hu hshapes rest rest' _ _ he
    obtain ⟨c, cs, htext, hc⟩ := ht.begins
    obtain ⟨c', cs', htext', hc'⟩ := hu.begins
    rw [htext, htext'] at he
    obtain ⟨rfl, -⟩ := List.cons.inj he
    exact absurd hc' (hshapes c hc)
  induction ht generalizing u with
  | @named name optional word =>
    cases hu with
    | named _ word' => exact toldApart_named word word'
    | function inParams inResult =>
      refine hopens (.named optional word) (.function inParams inResult) ?_
      rintro c hc rfl
      cases hc
    | record words inFields =>
      refine hopens (.named optional word) (.record words inFields) ?_
      rintro c hc rfl
      cases hc
  | @function params result inParams inResult ihp ihr =>
    cases hu with
    | named optional word =>
      refine hopens (.function inParams inResult) (.named optional word) ?_
      rintro c rfl hc
      cases hc
    | function inParams' inResult' =>
      refine toldApart_function (fun t ht => ?_) (fun t ht u hu => ihp t ht (inParams' u hu))
        (ihr inResult')
      exact (List.mem_append.mp ht).elim (inParams t) (inParams' t)
    | record words inFields =>
      refine hopens (.function inParams inResult) (.record words inFields) ?_
      rintro c rfl hc
      cases hc
  | @record fields words inFields ih =>
    cases hu with
    | named optional word =>
      refine hopens (.record words inFields) (.named optional word) ?_
      rintro c rfl hc
      cases hc
    | function inParams inResult =>
      refine hopens (.record words inFields) (.function inParams inResult) ?_
      rintro c rfl hc
      cases hc
    | record words' inFields' =>
      refine toldApart_record (fun f hf => ?_) fun f hf f' hf' => ih f hf (inFields' f' hf')
      exact (List.mem_append.mp hf).elim (words f) (words' f)

/-- Types of the same text are the same. -/
theorem render_inj (ht : t.Spelled) (hu : u.Spelled) (h : t.render = u.render) : t = u := by
  refine (ht.toldApart hu [] [] Text.endsName_nil Text.endsName_nil ?_).1
  rw [h]

end Ty

end RecordLang
