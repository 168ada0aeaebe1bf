import Lox.Proofs.Source.Printable

/-! Texts that spell tokens.
What a text spells does not depend on what stands behind it, as long as that starts with a character
that cannot extend the text. So the tokens that a text of several parts spells are those of its parts
(`Spelled.append`). -/
namespace Lox

open Concrete (The)

/-- In front of such a character, or at the end, the text is scanned by itself, without errors, and
tokens that differ from the scanned ones in their lines only have the property. -/
def Spelled (follow : Char → Bool) (text : String) (P : List Token → Prop) : Prop :=
  ∃ ps : List Piece,
    (∀ rest : List Char, (∀ c ∈ rest.head?, follow c) →
      pieces (text.toList ++ rest) = ps ++ pieces rest) ∧
    (∀ p ∈ ps, p.fault? = none) ∧
    ∀ ts, ts.map Token.stripped = ps.filterMap (Piece.token? · 0) → P ts

def anything : Char → Bool := fun _ => true

def LedBy (p : Char → Bool) (text : String) : Prop := ∃ c cs, text.toList = c :: cs ∧ p c

theorem LedBy.append {p : Char → Bool} {a : String} (h : LedBy p a) (b : String) :
    LedBy p (a ++ b) := by
  obtain ⟨c, cs, ha, hc⟩ := h
  exact ⟨c, cs ++ b.toList, by rw [String.toList_append, ha, List.cons_append], hc⟩

def Both (P Q : List Token → Prop) (ts : List Token) : Prop := ∃ us vs, ts = us ++ vs ∧ P us ∧ Q vs

namespace Spelled

variable {f g : Char → Bool} {a b : String} {P Q : List Token → Prop}

theorem imp (h : Spelled f a P) (hPQ : ∀ ts, P ts → Q ts) : Spelled f a Q := by
  obtain ⟨ps, hpieces, hfault, htokens⟩ := h
  exact ⟨ps, hpieces, hfault, fun ts hts => hPQ ts (htokens ts hts)⟩

theorem before (h : Spelled f a P) (hfg : ∀ c, g c → f c) : Spelled g a P := by
  obtain ⟨ps, hpieces, hfault, htokens⟩ := h
  exact ⟨ps, fun rest hrest => hpieces rest fun c hc => hfg c (hrest c hc), hfault, htokens⟩

theorem append_of_head (ha : Spelled f a P) (hb : Spelled g b Q)
    (hhead : ∀ rest : List Char, (∀ c ∈ rest.head?, g c) → ∀ c ∈ (b.toList ++ rest).head?, f c) :
    Spelled g (a ++ b) (Both P Q) := by
  obtain ⟨ps, hps, hpfault, hP⟩ := ha
  obtain ⟨qs, hqs, hqfault, hQ⟩ := hb
  refine ⟨ps ++ qs, fun rest hrest => ?_, List.forall_mem_append.2 ⟨hpfault, hqfault⟩,
    fun ts hts => ?_⟩
  · rw [String.toList_append, List.append_assoc, hps _ (hhead rest hrest), hqs rest hrest,
      List.append_assoc]
  · rw [List.filterMap_append, List.map_eq_append_iff] at hts
    obtain ⟨us, vs, rfl, hus, hvs⟩ := hts
    exact ⟨us, vs, rfl, hP us hus, hQ vs hvs⟩

theorem append (ha : Spelled f a P) (hb : Spelled g b Q) (hlead : LedBy f b) :
    Spelled g (a ++ b) (Both P Q) := by
  refine ha.append_of_head hb fun rest _ => ?_
  obtain ⟨c, cs, hc, hf⟩ := hlead
  rw [hc]
  rintro _ ⟨⟩
  exact hf

theorem followed (ha : Spelled anything a P) (hb : Spelled g b Q) : Spelled g (a ++ b) (Both P Q) :=
  ha.append_of_head hb fun _ _ _ _ => rfl

end Spelled

theorem spelled_piece {p : Piece} (hp : p.IsScanned) {token : Token} (ht : p.token? 0 = some token)
    {f : Char → Bool} (hstop : ∀ c, f c → p.stopsAt c) :
    Spelled f (.ofList p.text) fun ts => ∃ t, ts = [t] ∧ t.stripped = token := by
  refine ⟨[p], fun rest hrest => ?_, ?_, fun ts hts => ?_⟩
  · rw [String.toList_ofList]
    exact hp.pieces_append fun c hc => hstop c (hrest c hc)
  · intro q hq
    rw [List.mem_singleton.1 hq]
    cases p <;> first | rfl | cases ht
  · have htoken : [p].filterMap (Piece.token? · 0) = [token] := by simp [ht]
    rw [htoken, List.map_eq_singleton_iff] at hts
    exact hts

theorem content_of_token? {p : Piece} {t : Token} (ht : p.token? 0 = some t.stripped) :
    p.content? = some (t.kind, t.literal) ∧ t.lexeme = .ofList p.text := by
  unfold Piece.token? at ht
  cases hc : p.content? with
  | none => simp [hc] at ht
  | some content =>
    rw [hc] at ht
    injection ht with ht
    have hkind : content.1 = t.kind := congrArg Token.kind ht
    have hliteral : content.2 = t.literal := congrArg Token.literal ht
    have hlexeme : .ofList p.text = t.lexeme := congrArg Token.lexeme ht
    exact ⟨by rw [← hkind, ← hliteral], hlexeme.symm⟩

/-- A token from scanning is read from its lexeme. -/
theorem spelled_lexeme {t : Token} (h : t.IsLexical) :
    Spelled Piece.isBoundary t.lexeme fun ts => ∃ u, ts = [u] ∧ u.stripped = t.stripped := by
  obtain ⟨p, hp, ht⟩ := h
  obtain ⟨hcontent, hlexeme⟩ := content_of_token? ht
  rw [hlexeme]
  exact spelled_piece hp ht fun c hc => Piece.stopsAt_of_isBoundary (by rw [hcontent]; rfl) hc

/-- In front of what starts with no `=`, the operator of a unary expression is read from its
lexeme. -/
theorem spelled_unaryOp {t : Token} (h : t.IsLexical) (hk : Concrete.isPrefix t.kind) :
    Spelled (· ≠ '=') t.lexeme fun ts => ∃ u, ts = [u] ∧ u.stripped = t.stripped := by
  obtain ⟨p, hp, ht⟩ := h
  obtain ⟨hcontent, hlexeme⟩ := content_of_token? ht
  rw [hlexeme]
  refine spelled_piece hp ht fun c hc => ?_
  generalize t.kind = kind, t.literal = literal at hcontent hk
  cases p with
  | mark k text =>
    cases hcontent
    cases kind <;> first | rfl | (cases hk; done) | exact hc
  | string body =>
    cases hcontent
    cases hk
  | numeral whole fraction =>
    cases hcontent
    cases hk
  | word text =>
    injection hcontent with hcontent
    have hkind : (Kind.ofWord? (.ofList text)).getD .identifier = kind := congrArg Prod.fst hcontent
    rw [← hkind] at hk
    cases hword : Kind.ofWord? (.ofList text) with
    | none =>
      rw [hword] at hk
      cases hk
    | some kind =>
      have hwords : ∀ w ∈ Kind.words, ¬ Concrete.isPrefix w.2 := by decide
      rw [hword] at hk
      exact absurd hk (hwords _ (Kind.mem_words hword))
  | _ => cases hcontent

namespace Piece

def isWhole (p : Piece) : Bool :=
  match p.text with
  | [] => false
  | c :: cs => next c cs = (p, [])

def isClosed : Piece → Bool
  | blank _ => true
  | mark kind _ => !([.slash, .bang, .equal, .less, .greater].contains kind)
  | _ => false

theorem stopsAt_of_isClosed {p : Piece} (h : p.isClosed) (c : Char) : p.stopsAt c := by
  cases p with
  | blank => rfl
  | mark kind text => cases kind <;> first | rfl | cases h
  | _ => cases h

/-- Whether the pieces are scanned from their texts one after another, whatever follows them. -/
def areClosed : List Piece → Bool
  | [] => true
  | [p] => p.isWhole && p.isClosed
  | p :: q :: ps => p.isWhole && q.text.head?.any p.stopsAt && areClosed (q :: ps)

theorem isScanned_of_isWhole {p : Piece} (h : p.isWhole) : p.IsScanned := by
  unfold isWhole at h
  split at h
  · cases h
  · next c cs _ => exact ⟨c, cs, [], of_decide_eq_true h⟩

theorem pieces_of_areClosed (rest : List Char) : ∀ ps : List Piece, areClosed ps →
    pieces (ps.flatMap text ++ rest) = ps ++ pieces rest
  | [], _ => rfl
  | [p], h => by
    obtain ⟨hp, hclosed⟩ := Bool.and_eq_true_iff.1 h
    rw [List.flatMap_singleton]
    exact (isScanned_of_isWhole hp).pieces_append fun c _ => stopsAt_of_isClosed hclosed c
  | p :: q :: ps, h => by
    simp only [areClosed, Bool.and_eq_true] at h
    obtain ⟨⟨hp, hstop⟩, hps⟩ := h
    have hrest := pieces_of_areClosed rest (q :: ps) hps
    rw [List.flatMap_cons, List.append_assoc, List.cons_append, ← hrest]
    refine (isScanned_of_isWhole hp).pieces_append fun c hc => ?_
    cases hq : q.text with
    | nil => simp [hq] at hstop
    | cons d ds =>
      rw [List.flatMap_cons, hq] at hc
      cases hc
      simpa [hq] using hstop

end Piece

/-- A text of certain pieces, the last of which nothing extends. -/
theorem spelled_pieces {text : String} (ps : List Piece) (hps : Piece.areClosed ps)
    (htext : text.toList = ps.flatMap Piece.text) (hfault : ∀ p ∈ ps, p.fault? = none) :
    Spelled anything text fun ts => ts.map Token.stripped = ps.filterMap (Piece.token? · 0) := by
  refine ⟨ps, fun rest _ => ?_, hfault, fun ts hts => hts⟩
  rw [htext, Piece.pieces_of_areClosed rest ps hps]

theorem spelled_fixed {text : String} (ps : List Piece) (hps : Piece.areClosed ps)
    (htext : text.toList = ps.flatMap Piece.text) (hfault : ∀ p ∈ ps, p.fault? = none)
    {kinds : List Kind} (hkinds : (ps.filterMap (Piece.token? · 0)).map Token.kind = kinds) :
    Spelled anything text fun ts => ts.map Token.kind = kinds := by
  refine (spelled_pieces ps hps htext hfault).imp fun ts hts => ?_
  rw [← hkinds, ← hts, List.map_map]
  rfl

theorem spelled_empty : Spelled anything "" fun ts => ts.map Token.kind = [] :=
  spelled_fixed [] (by decide) rfl nofun rfl

theorem spelled_space : Spelled anything " " fun ts => ts.map Token.kind = [] :=
  spelled_fixed [.blank ' '] (by decide) rfl (by decide) rfl

theorem spelled_line : Spelled anything "\n" fun ts => ts.map Token.kind = [] :=
  spelled_fixed [.blank '\n'] (by decide) rfl (by decide) rfl

theorem spelled_leftParen : Spelled anything "(" fun ts => ts.map Token.kind = [.leftParen] :=
  spelled_fixed [.mark .leftParen ['(']] (by decide) rfl (by decide) rfl

theorem spelled_rightParen : Spelled anything ")" fun ts => ts.map Token.kind = [.rightParen] :=
  spelled_fixed [.mark .rightParen [')']] (by decide) rfl (by decide) rfl

theorem spelled_comma : Spelled anything ", " fun ts => ts.map Token.kind = [.comma] :=
  spelled_fixed [.mark .comma [','], .blank ' '] (by decide) rfl (by decide) rfl

theorem spelled_semicolon : Spelled anything ";" fun ts => ts.map Token.kind = [.semicolon] :=
  spelled_fixed [.mark .semicolon [';']] (by decide) rfl (by decide) rfl

theorem spelled_leftBrace : Spelled anything "\x7b" fun ts => ts.map Token.kind = [.leftBrace] :=
  spelled_fixed [.mark .leftBrace ['\x7b']] (by decide) rfl (by decide) rfl

theorem spelled_rightBrace : Spelled anything "\x7d" fun ts => ts.map Token.kind = [.rightBrace] :=
  spelled_fixed [.mark .rightBrace ['\x7d']] (by decide) rfl (by decide) rfl

theorem spelled_equal : Spelled anything " = " fun ts => ts.map Token.kind = [.equal] :=
  spelled_fixed [.blank ' ', .mark .equal ['='], .blank ' '] (by decide) rfl (by decide) rfl

end Lox
