import SurfaceLanguage.Proofs.Lexing.ScannerLoops

/-!
# Signs and their options

The scanner knows no table of spellings: behind a sign it tries the sign's options in
turn. What it reads in this way is the longest spelling. That the options are the longer
spellings is settled row by row.
-/
namespace SurfaceLanguage.Lexing
namespace Scan
open Scanner

section Signs
variable {s t : Scanner} {c : Char}

/-- The spellings that begin with a sign are the sign alone and the sign with one of its
options. -/
structure SignAgrees (c : Char) (options : List (Char × Symbol)) (alone : Symbol) : Prop where
  alone : ([c], alone) ∈ Symbol.spellings
  longer : ∀ o ∈ options, ([c, o.1], o.2) ∈ Symbol.spellings
  only : ∀ row ∈ Symbol.spellings, row.1.head? = some c → row.1.tail ∈ [] :: options.map ([·.1])

theorem signTable_agrees {options : List (Char × Symbol)} {alone : Symbol}
    (h : (c, options, alone) ∈ signTable) : SignAgrees c options alone := by
  have hall : ∀ row ∈ signTable, ([row.1], row.2.2) ∈ Symbol.spellings ∧
      (∀ o ∈ row.2.1, ([row.1, o.1], o.2) ∈ Symbol.spellings) ∧
      ∀ spelled ∈ Symbol.spellings, spelled.1.head? = some row.1 →
        spelled.1.tail ∈ [] :: row.2.1.map ([·.1]) := by decide +kernel
  obtain ⟨halone, hlonger, honly⟩ := hall _ h
  exact ⟨halone, hlonger, honly⟩

/-- Either one of the options comes next and is read, or none does. -/
theorem scanOptions_ends (ht : t.Sound) (alone : Symbol) (options : List (Char × Symbol))
    (hbreak : ∀ o ∈ options, o.1 ≠ '\n') :
    (∃ o ∈ options, ∃ u, Ends (scanOptions alone options) t (.ok o.2) u ∧ t.Passes [o.1] u) ∨
      (∀ o ∈ options, t.rest.head? ≠ some o.1) ∧
        Ends (scanOptions alone options) t (.ok alone) t := by
  induction options with
  | nil => exact .inr ⟨nofun, ends_pure alone t⟩
  | cons o options ih =>
    obtain ⟨d, longer⟩ := o
    by_cases hd : t.rest.head? = some d
    · obtain ⟨text, hrest⟩ := List.head?_eq_some_iff.1 hd
      obtain ⟨u, hmatch, hpasses⟩ :=
        matchChar_hit ht hrest (hbreak (d, longer) List.mem_cons_self)
      exact .inl ⟨(d, longer), List.mem_cons_self, u, hmatch.bind (ends_pure longer u), hpasses⟩
    · have hmiss := matchChar_miss hd
      rcases ih fun o ho => hbreak o (List.mem_cons_of_mem _ ho) with
        ⟨o, ho, u, hends, hpasses⟩ | ⟨hnone, hends⟩
      · exact .inl ⟨o, List.mem_cons_of_mem _ ho, u, hmiss.bind hends, hpasses⟩
      · exact .inr ⟨List.forall_mem_cons.2 ⟨hd, hnone⟩, hmiss.bind hends⟩

/-- A sign was read, with all that makes a longer symbol of it. -/
def ReadsSign (x : Scan Symbol) (s t : Scanner) (c : Char) : Prop :=
  ∃ sign more u, Ends x t (.ok sign) u ∧ s.Passes (c :: more) u ∧
    Piece.Fits ⟨.symbol sign, c :: more⟩ u.rest

theorem scanOptions_readsSign {options : List (Char × Symbol)} {alone : Symbol}
    (hread : s.Passes [c] t) (h : SignAgrees c options alone) (hc : c ≠ '/')
    (hbreak : ∀ o ∈ options, o.1 ≠ '\n') : ReadsSign (scanOptions alone options) s t c := by
  rcases scanOptions_ends hread.sound alone options hbreak with
    ⟨o, ho, u, hends, hpasses⟩ | ⟨hnone, hends⟩
  · refine ⟨o.2, [o.1], u, hends, hread.trans hpasses, fits_symbol (h.longer o ho) ?_⟩
    intro d _
    exact joins_eq_false hc h.only (by simp)
  · refine ⟨alone, [], t, hends, hread, fits_symbol h.alone ?_⟩
    intro d hd
    refine joins_eq_false hc h.only ?_
    intro hmem
    simp only [List.nil_append, List.mem_cons, List.cons_ne_nil, false_or, List.mem_map,
      List.cons.injEq, and_true] at hmem
    obtain ⟨o, ho, rfl⟩ := hmem
    exact hnone o ho hd

/-- Up to three dots are spelled. -/
theorem scanDots_readsSign (hread : s.Passes ['.'] t) : ReadsSign scanDots s t '.' := by
  have honly : ∀ row ∈ Symbol.spellings, row.1.head? = some '.' →
      row.1.tail ∈ [[], ['.'], ['.', '.']] := by decide
  have hdot : '.' ≠ '/' := by decide
  by_cases hfirst : t.rest.head? = some '.'
  · obtain ⟨text, hrest⟩ := List.head?_eq_some_iff.1 hfirst
    obtain ⟨u, hmatch, hpasses⟩ := matchChar_hit hread.sound hrest (by decide)
    by_cases hsecond : u.rest.head? = some '.'
    · obtain ⟨text, hrest⟩ := List.head?_eq_some_iff.1 hsecond
      obtain ⟨v, hmatch', hpasses'⟩ := matchChar_hit hpasses.sound hrest (by decide)
      refine ⟨.ellipsis, ['.', '.'], v, hmatch.bind (hmatch'.bind (ends_pure _ v)),
        (hread.trans hpasses).trans hpasses', fits_symbol (by decide) ?_⟩
      exact fun d _ => joins_eq_false hdot honly (by simp)
    · refine ⟨.dot, ['.'], u, hmatch.bind ((matchChar_miss hsecond).bind (ends_pure _ u)),
        hread.trans hpasses, fits_symbol (by decide) ?_⟩
      intro d hd
      have hne : d ≠ '.' := by
        rintro rfl
        exact hsecond hd
      exact joins_eq_false hdot honly (by simp [hne])
  · refine ⟨.dot, [], t, (matchChar_miss hfirst).bind (ends_pure _ t), hread,
      fits_symbol (by decide) ?_⟩
    intro d hd
    have hne : d ≠ '.' := by
      rintro rfl
      exact hfirst hd
    exact joins_eq_false hdot honly (by simp [hne])

/-- What begins a symbol is in the table, apart from the two signs that are read apart. -/
theorem exists_row_of_mem_signs (h : c ∈ Symbol.signs) (hdot : c ≠ '.') (hslash : c ≠ '/') :
    ∃ row, signTable.lookup c = some row := by
  have hall : Symbol.signs.all
      (fun d => d == '.' || d == '/' || (signTable.lookup d).isSome) = true := by decide
  have hrow := List.all_eq_true.1 hall c h
  simp only [Bool.or_eq_true, beq_iff_eq, hdot, hslash, false_or] at hrow
  exact Option.isSome_iff_exists.1 hrow

theorem mem_signTable_of_lookup {row : List (Char × Symbol) × Symbol}
    (h : signTable.lookup c = some row) : (c, row) ∈ signTable := by
  obtain ⟨before, after, hsplit, -⟩ := List.lookup_eq_some_iff.1 h
  rw [hsplit]
  exact List.mem_append_right _ List.mem_cons_self

theorem scanSign_readsSign (hread : s.Passes [c] t) (hsign : c ∈ Symbol.signs) (hslash : c ≠ '/') :
    ReadsSign (scanSign c) s t c := by
  by_cases hdot : c = '.'
  · subst hdot
    exact scanDots_readsSign hread
  · obtain ⟨⟨options, alone⟩, hrow⟩ := exists_row_of_mem_signs hsign hdot hslash
    have hbreak : ∀ row ∈ signTable, ∀ o ∈ row.2.1, o.1 ≠ '\n' := by decide
    have hmem := mem_signTable_of_lookup hrow
    rw [scanSign, if_neg hdot, hrow]
    exact scanOptions_readsSign hread (signTable_agrees hmem) hslash (hbreak _ hmem)

/-- A character that is no sign is not expected here. -/
theorem scanSign_unexpected (hsign : c ∉ Symbol.signs) :
    Ends (scanSign c) t (.error (errorAt (.unexpectedCharacter c) t.position)) t := by
  have hdot : c ≠ '.' := by
    rintro rfl
    exact absurd (by decide) hsign
  have hnone : signTable.lookup c = none := by
    cases hrow : signTable.lookup c with
    | none => rfl
    | some row =>
      have hagrees := signTable_agrees (mem_signTable_of_lookup hrow)
      exact absurd (Symbol.mem_signs_of_mem hagrees.alone) hsign
  rw [scanSign, if_neg hdot, hnone]
  exact failHere_ends _ t

end Signs

end Scan
end SurfaceLanguage.Lexing
