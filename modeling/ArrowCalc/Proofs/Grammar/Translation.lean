import ArrowCalc.Proofs.Grammar
import Mathlib.Algebra.Order.Group.Int

/-!
# From one dialect to the other

A translation rewrites the tokens of a phrase without changing its tree. What it makes of a token
may depend on the tokens that follow, so it takes the phrase and its context. It has to leave every
token as it is, except that it exchanges the opening of a function literal for that of the other
dialect.

Whether a parenthesis opens a function literal shows at the token behind its partner. This is an
arrow for a function literal. For a parenthesis around an expression or around arguments it is
whatever follows the phrase, and no phrase is followed by an arrow (`NoArrow`). The tokens in
between have matching parentheses (`Balanced`), so that the partner can be found by counting.

## Main definitions

* `Grammar.Balanced` — the parentheses match
* `Grammar.Translates` — a translation between two dialects

## Main results

* `Grammar.Derives.balanced` — the parentheses of a phrase match
* `Grammar.Translates.derives`, `Grammar.Translates.program` — a translation keeps the trees
* `Grammar.translates_erase` — leaving out the marks is a translation
-/

namespace ArrowCalc

namespace Grammar

/-! ### Matching parentheses

`Balanced` is about the tokens alone and does not mention phrases, so that a search for the partner
of a parenthesis can be analysed without the grammar. -/

/-- Each parenthesis has its partner, and the input does not end. -/
inductive Balanced : List Token → Prop where
  | nil : Balanced []
  | token {t : Token} (hopen : t.kind ≠ .lparen) (hclose : t.kind ≠ .rparen)
      (heof : t.kind ≠ .eof) : Balanced [t]
  | append {ts us : List Token} (hts : Balanced ts) (hus : Balanced us) : Balanced (ts ++ us)
  | nested {opening close : Token} {ts : List Token} (hopen : opening.kind = .lparen)
      (hts : Balanced ts) (hclose : close.kind = .rparen) : Balanced (opening :: (ts ++ [close]))

theorem Balanced.cons {t : Token} {ts : List Token} {kind : TokenKind} (ht : t.kind = kind)
    (hkind : kind ∉ [TokenKind.lparen, .rparen, .eof]) (hts : Balanced ts) :
    Balanced (t :: ts) := by
  subst ht
  rw [List.mem_cons, List.mem_cons, List.mem_singleton, not_or, not_or] at hkind
  exact .append (.token hkind.1 hkind.2.1 hkind.2.2) hts

theorem Balanced.append_cons {t : Token} {ts us : List Token} {kind : TokenKind}
    (hts : Balanced ts) (ht : t.kind = kind) (hkind : kind ∉ [TokenKind.lparen, .rparen, .eof])
    (hus : Balanced us) : Balanced (ts ++ t :: us) :=
  .append hts (.cons ht hkind hus)

/-- Commas between pieces open and close nothing. -/
theorem Joined.balanced {pieces : List (List Token)} {ts : List Token} (h : Joined pieces ts)
    (hpieces : ∀ piece ∈ pieces, Balanced piece) : Balanced ts := by
  induction h with
  | nil => exact .nil
  | single piece => exact hpieces piece List.mem_cons_self
  | cons piece hcomma _ ih =>
    obtain ⟨hpiece, hpieces⟩ := List.forall_mem_cons.mp hpieces
    exact hpiece.append_cons hcomma (by decide) (ih hpieces)

theorem IsName.balanced {ts : List Token} {name : String} (h : IsName ts name) : Balanced ts := by
  obtain ⟨t, rfl, hkind, -⟩ := h
  exact .cons hkind (by decide) .nil

/-- Names with commas between them have no parentheses. -/
theorem params_balanced {params : List (List Token × String)} {list : List Token}
    (hparams : ∀ p ∈ params, IsName p.1 p.2) (hlist : Joined (params.map Prod.fst) list) :
    Balanced list :=
  hlist.balanced (List.forall_mem_map.mpr fun p hp => (hparams p hp).balanced)

/-- A function literal nests its parameters, whether or not there is a mark in front. -/
theorem balanced_opening {d : Dialect} {opening list : List Token} {close : Token}
    (hopen : opening.map Token.kind = d.opening) (hlist : Balanced list)
    (hclose : close.kind = .rparen) : Balanced (opening ++ (list ++ [close])) := by
  cases d with
  | marked =>
    obtain ⟨mark, l, rfl, hmark, hl⟩ := Dialect.opening_marked hopen
    exact .cons hmark (by decide) (.nested hl hlist hclose)
  | plain =>
    obtain ⟨l, rfl, hl⟩ := Dialect.opening_plain hopen
    exact .nested hl hlist hclose

/-- The parentheses of a phrase match. -/
theorem Derives.balanced {d : Dialect} {layer : Layer} {ts : List Token} {e : Expr}
    (h : Derives d layer ts e) : Balanced ts := by
  induction h with
  | @func opening list body params close arrow e hopen hparams hlist hclose harrow _ ih =>
    have hhead := balanced_opening hopen (params_balanced hparams hlist) hclose
    have htail := hhead.append (.cons harrow (by decide) ih)
    rwa [List.append_assoc, List.append_assoc, List.singleton_append, ← List.append_assoc] at htail
  | declare hkw hname hassign _ ih =>
    exact .cons hkw (by decide) (hname.balanced.append_cons hassign (by decide) ih)
  | sum _ hop _ ihleft ihright =>
    rcases sumOp?_eq_some hop with hk | hk <;> exact ihleft.append_cons hk (by decide) ihright
  | product _ hop _ ihleft ihright =>
    rcases productOp?_eq_some hop with hk | hk <;> exact ihleft.append_cons hk (by decide) ihright
  | sign hop _ ih =>
    rcases sign?_eq_some hop with hk | hk <;> exact .cons hk (by decide) ih
  | power _ hop _ ihbase ihexponent => exact ihbase.append_cons hop (by decide) ihexponent
  | call _ hopen _ hlist hclose ihcallee ihargs =>
    have hlisted := hlist.balanced (List.forall_mem_map.mpr ihargs)
    exact .append ihcallee (.nested hopen hlisted hclose)
  | var hname => exact hname.balanced
  | int hvalue =>
    obtain ⟨t, rfl, hkind, -⟩ := hvalue
    exact .cons hkind (by decide) .nil
  | paren hopen _ hclose ih => exact .nested hopen ih hclose
  | ofSum _ ih | ofProduct _ ih | ofSigned _ ih | ofPower _ ih | ofApplication _ ih
  | ofPrimary _ ih => exact ih

/-! ### Translations

The four conditions of `Translates` say what a translation does to the pieces of a phrase in a given
context. They leave open how it finds out, and one induction on phrases serves for both directions.
-/

/-- No arrow comes first. -/
def NoArrow (rest : List Token) : Prop := rest.head?.map Token.kind ≠ some .arrow

theorem noArrow_cons {t : Token} {kind : TokenKind} (ht : t.kind = kind) (hkind : kind ≠ .arrow)
    (rest : List Token) : NoArrow (t :: rest) := by
  rw [NoArrow, List.head?_cons, Option.map_some, ht]
  exact fun h => hkind (Option.some.inj h)

/-- `f ts rest` rewrites the tokens `ts` in front of `rest` from the dialect `d` to `d'`. -/
structure Translates (d d' : Dialect) (f : List Token → List Token → List Token) : Prop where
  append (ts us rest : List Token) : f (ts ++ us) rest = f ts (us ++ rest) ++ f us rest
  token {t : Token} (ht : t.kind ∈ TokenKind.newline :: sharedKinds) (hopen : t.kind ≠ .lparen)
    (rest : List Token) : f [t] rest = [t]
  paren {opening close : Token} {ts rest : List Token} (hopen : opening.kind = .lparen)
    (hts : Balanced ts) (hclose : close.kind = .rparen) (hrest : NoArrow rest) :
    f [opening] (ts ++ close :: rest) = [opening]
  opening {opening ts : List Token} {close arrow : Token}
    (hopen : opening.map Token.kind = d.opening) (hts : Balanced ts) (hclose : close.kind = .rparen)
    (harrow : arrow.kind = .arrow) (rest : List Token) :
    (f opening (ts ++ close :: arrow :: rest)).map Token.kind = d'.opening

namespace Translates

variable {d d' : Dialect} {f : List Token → List Token → List Token} (hf : Translates d d' f)

include hf

/-- Nothing is translated to nothing, since `f` treats lists piece by piece. -/
theorem nil (rest : List Token) : f [] rest = [] := by
  have h := hf.append [] [] rest
  exact List.self_eq_append_right.mp h

/-- A token that opens nothing is copied. -/
theorem cons {t : Token} {kind : TokenKind} (ht : t.kind = kind)
    (hkind : kind ∈ TokenKind.newline :: sharedKinds ∧ kind ≠ .lparen) (ts rest : List Token) :
    f (t :: ts) rest = t :: f ts rest := by
  subst ht
  rw [← List.singleton_append, hf.append, hf.token hkind.1 hkind.2, List.singleton_append]

theorem append_cons {t : Token} {kind : TokenKind} (ts : List Token) (ht : t.kind = kind)
    (hkind : kind ∈ TokenKind.newline :: sharedKinds ∧ kind ≠ .lparen) (us rest : List Token) :
    f (ts ++ t :: us) rest = f ts (t :: (us ++ rest)) ++ t :: f us rest := by
  rw [hf.append, hf.cons ht hkind, List.cons_append]

/-- A pair of parentheses that belongs to no function literal stays as it is. -/
theorem nested {opening close : Token} {ts rest : List Token} (hopen : opening.kind = .lparen)
    (hts : Balanced ts) (hclose : close.kind = .rparen) (hrest : NoArrow rest) :
    f (opening :: (ts ++ [close])) rest = opening :: (f ts (close :: rest) ++ [close]) := by
  have hparen := hf.paren hopen hts hclose hrest
  rw [← List.singleton_append, hf.append, List.append_assoc, List.singleton_append, hparen,
    hf.append_cons ts hclose (by decide), hf.nil, List.nil_append, List.singleton_append]

theorem name {ts : List Token} {name : String} (h : IsName ts name) (rest : List Token) :
    IsName (f ts rest) name := by
  obtain ⟨t, rfl, hkind, hname⟩ := h
  rw [hf.cons hkind (by decide), hf.nil]
  exact ⟨t, rfl, hkind, hname⟩

/-- Joined items are translated one by one. -/
theorem joined {α : Type} {Item : List Token → α → Prop} {items : List (List Token × α)}
    {list rest : List Token}
    (hitems : ∀ i ∈ items, ∀ rest, NoArrow rest → Item (f i.1 rest) i.2)
    (hlist : Joined (items.map Prod.fst) list) (hrest : NoArrow rest) :
    ∃ items' : List (List Token × α), (∀ i ∈ items', Item i.1 i.2) ∧
      Joined (items'.map Prod.fst) (f list rest) ∧ items'.map Prod.snd = items.map Prod.snd := by
  induction items generalizing list with
  | nil =>
    cases hlist
    refine ⟨[], List.forall_mem_nil _, ?_, rfl⟩
    rw [hf.nil]
    exact .nil
  | cons i items ih =>
    obtain ⟨hi, hitems⟩ := List.forall_mem_cons.mp hitems
    cases items with
    | nil =>
      cases hlist
      exact ⟨[(f i.1 rest, i.2)], List.forall_mem_singleton.mpr (hi rest hrest), .single _, rfl⟩
    | cons j items =>
      cases hlist with
      | @cons _ _ _ comma ts hcomma hlist =>
        obtain ⟨items', hitems', hlist', hvalues⟩ := ih hitems hlist
        cases items' with
        | nil => cases hvalues
        | cons j' items' =>
          have hhead := hi (comma :: (ts ++ rest)) (noArrow_cons hcomma (by decide) _)
          refine ⟨(f i.1 (comma :: (ts ++ rest)), i.2) :: j' :: items',
            List.forall_mem_cons.mpr ⟨hhead, hitems'⟩, ?_, congrArg (i.2 :: ·) hvalues⟩
          rw [hf.append_cons i.1 hcomma (by decide)]
          exact .cons _ hcomma hlist'

/-- A translated phrase is a phrase of the other dialect, with the same tree. -/
theorem derives {layer : Layer} {ts rest : List Token} {e : Expr} (h : Derives d layer ts e)
    (hrest : NoArrow rest) : Derives d' layer (f ts rest) e := by
  induction h generalizing rest with
  | @func opening list body params close arrow e hopen hparams hlist hclose harrow _ ih =>
    have hclosed : NoArrow (close :: arrow :: (body ++ rest)) :=
      noArrow_cons hclose (by decide) _
    obtain ⟨params', hparams', hlist', hnames⟩ :=
      hf.joined (fun p hp rest _ => hf.name (hparams p hp) rest) hlist hclosed
    -- only here does the translation change anything, and it sees the arrow behind the parameters
    have hopen' :=
      hf.opening hopen (params_balanced hparams hlist) hclose harrow (body ++ rest)
    rw [List.append_assoc, hf.append, hf.append, hf.cons hclose (by decide),
      hf.cons harrow (by decide), List.append_assoc, List.cons_append, List.cons_append,
      ← hnames, ← List.append_assoc]
    exact .func hopen' hparams' hlist' hclose harrow (ih hrest)
  | declare hkw hname hassign _ ih =>
    rw [hf.cons hkw (by decide), hf.append_cons _ hassign (by decide)]
    exact .declare hkw (hf.name hname _) hassign (ih hrest)
  | ofSum _ ih => exact .ofSum (ih hrest)
  | sum _ hop _ ihleft ihright =>
    rcases sumOp?_eq_some hop with hk | hk <;> rw [hf.append_cons _ hk (by decide)] <;>
      exact .sum (ihleft (noArrow_cons hk (by decide) _)) hop (ihright hrest)
  | ofProduct _ ih => exact .ofProduct (ih hrest)
  | product _ hop _ ihleft ihright =>
    rcases productOp?_eq_some hop with hk | hk <;> rw [hf.append_cons _ hk (by decide)] <;>
      exact .product (ihleft (noArrow_cons hk (by decide) _)) hop (ihright hrest)
  | ofSigned _ ih => exact .ofSigned (ih hrest)
  | sign hop _ ih =>
    rcases sign?_eq_some hop with hk | hk <;> rw [hf.cons hk (by decide)] <;>
      exact .sign hop (ih hrest)
  | ofPower _ ih => exact .ofPower (ih hrest)
  | power _ hop _ ihbase ihexponent =>
    rw [hf.append_cons _ hop (by decide)]
    exact .power (ihbase (noArrow_cons hop (by decide) _)) hop (ihexponent hrest)
  | ofApplication _ ih => exact .ofApplication (ih hrest)
  | @call ts list opening close callee args _ hopen hargs hlist hclose ihcallee ihargs =>
    have hlisted :=
      hlist.balanced (List.forall_mem_map.mpr fun a ha => (hargs a ha).balanced)
    obtain ⟨args', hargs', hlist', hvalues⟩ :=
      hf.joined (fun a ha _ => ihargs a ha) hlist (noArrow_cons hclose (by decide) rest)
    -- behind the arguments stands whatever follows the call, and this is no arrow
    rw [hf.append, hf.nested hopen hlisted hclose hrest, ← hvalues]
    exact .call (ihcallee (noArrow_cons hopen (by decide) _)) hopen hargs' hlist' hclose
  | ofPrimary _ ih => exact .ofPrimary (ih hrest)
  | var hname => exact .var (hf.name hname rest)
  | int hvalue =>
    obtain ⟨t, rfl, hkind, hvalue⟩ := hvalue
    rw [hf.cons hkind (by decide), hf.nil]
    exact .int ⟨t, rfl, hkind, hvalue⟩
  | paren hopen h hclose ih =>
    rw [hf.nested hopen h.balanced hclose hrest]
    exact .paren hopen (ih (noArrow_cons hclose (by decide) rest)) hclose

/-- Line breaks are copied. -/
theorem breaks {ts : List Token} (h : LineBreaks ts) (rest : List Token) : f ts rest = ts := by
  induction ts with
  | nil => exact hf.nil rest
  | cons t ts ih =>
    obtain ⟨ht, hts⟩ := List.forall_mem_cons.mp h
    rw [hf.cons ht (by decide), ih hts]

/-- A translated program is a program of the other dialect, with the same statements. -/
theorem program {ts rest : List Token} {es : List Expr} (h : Program d ts es)
    (hrest : NoArrow rest) : Program d' (f ts rest) es := by
  have hbehind : ∀ {breaks us : List Token}, LineBreaks breaks → (breaks = [] → NoArrow us) →
      NoArrow (breaks ++ us) := by
    intro breaks us hbreaks hus
    cases breaks with
    | nil => exact hus rfl
    | cons t breaks => exact noArrow_cons (hbreaks t List.mem_cons_self) (by decide) _
  induction h with
  | last h hbreaks =>
    rw [hf.append, hf.breaks hbreaks]
    exact .last (hf.derives h (hbehind hbreaks fun _ => hrest)) hbreaks
  | @cons ts breaks us e es h hne hbreaks _ ih =>
    have hts : NoArrow ((breaks ++ us) ++ rest) := by
      rw [List.append_assoc]
      exact hbehind hbreaks fun hnil => absurd hnil hne
    rw [hf.append, hf.append, hf.breaks hbreaks]
    exact .cons (hf.derives h hts) hne hbreaks ih

end Translates

/-! ### Leaving out the marks

The way back from the marked dialect needs no context: a mark is a token of its own kind. -/

/-- The tokens without the marks among them. -/
def eraseMarks (ts : List Token) : List Token := ts.filter (·.kind ≠ .func)

theorem eraseMarks_singleton {t : Token} (h : t.kind ≠ .func) : eraseMarks [t] = [t] :=
  List.filter_cons_of_pos (decide_eq_true h)

/-- Leaving out the marks leads from the marked dialect to the plain one. -/
theorem translates_erase : Translates .marked .plain fun ts _ => eraseMarks ts where
  append ts us _ := List.filter_append ts us
  token {t} ht _ _ := by
    refine eraseMarks_singleton fun hfunc => ?_
    rw [hfunc] at ht
    exact absurd ht (by decide)
  paren hopen _ _ _ := eraseMarks_singleton (by rw [hopen]; decide)
  opening {opening _ _ _} hopen _ _ _ _ := by
    obtain ⟨mark, l, rfl, hmark, hl⟩ := Dialect.opening_marked hopen
    rw [eraseMarks, List.filter_cons_of_neg (by simp [hmark])]
    rw [← eraseMarks, eraseMarks_singleton (by rw [hl]; decide), List.map_singleton, hl]
    rfl

end Grammar

end ArrowCalc
