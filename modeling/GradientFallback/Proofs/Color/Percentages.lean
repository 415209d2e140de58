import GradientFallback.Color.Parser
import GradientFallback.Proofs.Number.Alphabet
import GradientFallback.Proofs.Number.Nearest
import GradientFallback.Proofs.Text.Fields
import GradientFallback.Proofs.Text.Trimming

/-! # Percent signs of channels

A percent sign is dropped from a channel before its number is read, so the channel is the number in front
of the sign and no share of 255.
-/
namespace GradientFallback
namespace Color

/-! ## Channels -/

/-- Of what is dropped from a channel, a numeral can only have a percent sign behind it. -/
theorem foldl_without_droppedWords {cs : List Char}
    (h : ∀ c ∈ cs, Numeral.allows c = true ∨ c = '%') :
    droppedWords.foldl (fun cs word => without word cs) cs = cs.filter (· != '%') := by
  have habsent {c : Char} (hc : Numeral.allows c = false) (hpercent : c ≠ '%') : c ∉ cs := fun hmem =>
    (h c hmem).elim (fun hnumeral => by simp [hc] at hnumeral) hpercent
  have habsent' {c : Char} (hc : Numeral.allows c = false) (hpercent : c ≠ '%') :
      c ∉ cs.filter (· != '%') := fun hmem => habsent hc hpercent (List.mem_of_mem_filter hmem)
  simp only [droppedWords, List.foldl_cons, List.foldl_nil]
  rw [without_eq_self "rgba".toList rfl (habsent (by decide) (by decide)),
    without_eq_self "rgb".toList rfl (habsent (by decide) (by decide)),
    without_eq_self "hsla".toList rfl (habsent (by decide) (by decide)),
    without_eq_self "hsl".toList rfl (habsent (by decide) (by decide)),
    without_eq_self ['('] rfl (habsent (by decide) (by decide)),
    without_eq_self [')'] rfl (habsent (by decide) (by decide)),
    without_singleton '%',
    without_eq_self [' '] rfl (habsent' (by decide) (by decide))]

/-- A percent sign says nothing. -/
theorem channel?_eq {cs : List Char} {n : Numeral} (h : Numeral.read? cs = some n) :
    channel? cs = some n.toFloat32 ∧ channel? (cs ++ ['%']) = some n.toFloat32 := by
  have hnumeral := Numeral.allows_of_read? h
  have hkept : cs.filter (· != '%') = cs := List.filter_eq_self.2 fun c hc => by
    have hne : c ≠ '%' := (Numeral.ne_of_allows (by decide) (hnumeral c hc)).symm
    simpa using hne
  have hsigned : ∀ c ∈ cs ++ ['%'], Numeral.allows c = true ∨ c = '%' := fun c hc =>
    (List.mem_append.1 hc).imp (hnumeral c) List.mem_singleton.1
  constructor
  · rw [channel?, foldl_without_droppedWords fun c hc => .inl (hnumeral c hc), hkept, h]
    rfl
  · rw [channel?, foldl_without_droppedWords hsigned, List.filter_append, hkept]
    simp [h]

theorem separates_eq_false {c : Char} (hc : Numeral.allows c = true) : separates c = false := by
  have hcomma : c ≠ ',' := (Numeral.ne_of_allows (by decide) hc).symm
  have hslash : c ≠ '/' := (Numeral.ne_of_allows (by decide) hc).symm
  simp [separates, hcomma, hslash, Numeral.isBlank_of_allows hc]

/-- A text that stands for a channel between separators. -/
structure IsChannel (cs : List Char) (x : Float32) : Prop where
  ne_nil : cs ≠ []
  solid : ∀ c ∈ cs, separates c = false
  reads : channel? cs = some x

theorem isChannel_numeral {cs : List Char} {n : Numeral} (h : Numeral.read? cs = some n) :
    IsChannel cs n.toFloat32 ∧ IsChannel (cs ++ ['%']) n.toFloat32 := by
  have hsolid : ∀ c ∈ cs, separates c = false := fun c hc =>
    separates_eq_false (Numeral.allows_of_read? h c hc)
  refine ⟨⟨Numeral.ne_nil_of_read? h, hsolid, (channel?_eq h).1⟩,
    ⟨List.append_ne_nil_of_right_ne_nil cs (by decide), ?_, (channel?_eq h).2⟩⟩
  rw [List.forall_mem_append]
  exact ⟨hsolid, List.forall_mem_singleton.2 (by decide)⟩

/-! ## Channels between separators -/

/-- The separators in front of three channels, between them and behind them. -/
structure Gaps where
  before : List Char
  first : List Char
  second : List Char
  behind : List Char
  separate : ∀ c ∈ before ++ first ++ second ++ behind, separates c = true
  first_ne : first ≠ []
  second_ne : second ≠ []

namespace Gaps

variable (g : Gaps) (a b c : List Char)

/-- Three channels with the separators around them. -/
def channels : List Char := g.before ++ (a ++ (g.first ++ (b ++ (g.second ++ (c ++ g.behind)))))

/-- The color function of three channels. -/
def rgb : List Char := "rgb(".toList ++ (g.channels a b c ++ [')'])

theorem fieldsOf_channels {a b c : List Char} {x y z : Float32} (ha : IsChannel a x)
    (hb : IsChannel b y) (hc : IsChannel c z) :
    fieldsOf separates (g.channels a b c) = [a, b, c] := by
  have hseparate := g.separate
  simp only [List.forall_mem_append] at hseparate
  obtain ⟨⟨⟨hbefore, hfirst⟩, hsecond⟩, hbehind⟩ := hseparate
  have hhead {gap rest : List Char} (hne : gap ≠ []) (hgap : ∀ d ∈ gap, separates d = true) :
      ∀ d ∈ (gap ++ rest).head?, separates d = true := fun d hd => by
    rw [List.head?_append_of_ne_nil _ hne] at hd
    exact hgap d (List.mem_of_mem_head? hd)
  rw [channels, fieldsOf_append hbefore ha.solid ha.ne_nil (hhead g.first_ne hfirst),
    fieldsOf_append hfirst hb.solid hb.ne_nil (hhead g.second_ne hsecond),
    fieldsOf_append hsecond hc.solid hc.ne_nil fun d hd => hbehind d (List.mem_of_mem_head? hd),
    fieldsOf_of_forall hbehind]

theorem read?_rgb {a b c : List Char} {x y z : Float32} (ha : IsChannel a x)
    (hb : IsChannel b y) (hc : IsChannel c z) : read? (g.rgb a b c) = some (ofRgb ⟨x, y, z, 1⟩) := by
  have hbehind : behind? ["rgb(", "rgba("] (g.rgb a b c) = some (g.channels a b c ++ [')']) := rfl
  have harguments : arguments? (g.channels a b c ++ [')']) = some ⟨x, y, z, 1⟩ := by
    rw [arguments?, if_pos List.getLast?_concat, List.dropLast_concat,
      g.fieldsOf_channels ha hb hc]
    simp only [ha.reads, hb.reads, hc.reads]
    rfl
  unfold read?
  split
  · next hsign => exact absurd (List.cons.inj hsign).1 (by decide)
  · rw [hbehind]
    dsimp only
    rw [harguments]
    rfl

theorem rgb_toLower : (g.rgb a b c).map Char.toLower =
    g.rgb (a.map Char.toLower) (b.map Char.toLower) (c.map Char.toLower) := by
  have hseparate := g.separate
  simp only [List.forall_mem_append] at hseparate
  obtain ⟨⟨⟨hbefore, hfirst⟩, hsecond⟩, hbehind⟩ := hseparate
  have hcapitals : capitals.all (fun d => !separates d) = true := by decide
  have hgap {gap : List Char} (h : ∀ d ∈ gap, separates d = true) : gap.map Char.toLower = gap := by
    refine (List.map_congr_left fun d hd => toLower_eq_self fun hcapital => ?_).trans (List.map_id _)
    exact absurd (h d hd) (by simpa using List.all_eq_true.1 hcapitals d hcapital)
  simp only [rgb, channels, List.map_append, hgap hbefore, hgap hfirst, hgap hsecond, hgap hbehind]
  rfl

/-- Blanks around the notation and capitals in it do not matter. -/
theorem parse_rgb {a b c : List Char} {x y z : Float32} (ha : IsChannel (a.map Char.toLower) x)
    (hb : IsChannel (b.map Char.toLower) y) (hc : IsChannel (c.map Char.toLower) z) :
    parse (String.ofList (g.rgb a b c)) = .ok (ofRgb ⟨x, y, z, 1⟩) := by
  have htrimmed : IsTrimmed (g.rgb a b c) := by
    refine ⟨fun d hd => ?_, fun d hd => ?_⟩
    · cases hd
      rfl
    · rw [rgb, ← List.append_assoc, List.getLast?_concat] at hd
      cases hd
      rfl
  rw [parse, String.toList_ofList, htrimmed.trim_eq, rgb_toLower, g.read?_rgb ha hb hc]

end Gaps

/-! ## Bytes of channels -/

/-- A number near to another one has no minus sign, or is zero. -/
theorem not_lt_zero {x : ℚ} {f : Float32} (h : Near x f.toModel.unpack) : ¬f < 0 := by
  have hzero : (0 : Float32).toModel.unpack = .zero .positive := rfl
  rw [lt_iff_compare, hzero]
  generalize f.toModel.unpack = u at h
  cases h <;> exact nofun

theorem not_gt_255 {x : ℚ} {f : Float32} (h : Near x f.toModel.unpack) (hx : x ≤ 254) :
    ¬f > 255 := by
  have hmost : (255 : Float32).toModel.unpack =
    .finite .positive (255 * 2 ^ 16) (-16) (by decide) := rfl
  rw [GT.gt, lt_iff_compare, hmost]
  generalize f.toModel.unpack = u at h
  cases h with
  | zero => exact nofun
  | finite m e pos canonical hnear =>
    intro hlt
    have he := canonical.exponent_lt pos hnear (by linarith)
    have hvalue : (m : ℚ) * 2 ^ e < 255 := by linarith [(abs_le.1 hnear).2]
    have hcompare : (compare (-16) e).then (compare (255 * 2 ^ 16) m) = .lt := Option.some.inj hlt
    -- A larger exponent has a mantissa of 24 bits, so the number is 256 at least; at the same exponent
    -- the mantissas are compared.
    rcases Ordering.then_eq_lt.1 hcompare with hexponent | ⟨hexponent, hmantissa⟩
    · have hlow := compare_lt_iff_lt.1 hexponent
      obtain rfl : e = -15 := by omega
      have hfull : (2 ^ 23 : ℚ) ≤ m := by exact_mod_cast canonical.full.resolve_right (by decide)
      norm_num at hvalue
      linarith
    · obtain rfl := compare_eq_iff_eq.1 hexponent
      have hfull : (255 * 2 ^ 16 : ℚ) < m := by exact_mod_cast compare_lt_iff_lt.1 hmantissa
      norm_num at hvalue
      linarith

/-- A channel inside its range is kept. -/
theorem limit_of_near {x : ℚ} {f : Float32} (h : Near x f.toModel.unpack) (hx : x ≤ 254) :
    limit 255 f = f := by
  rw [limit, if_neg (not_lt_zero h), if_neg (not_gt_255 h hx)]

/-- An opaque color of three channels is written with the bytes of the channels. -/
theorem argbText_ofRgb {a b c : Float32} (ha : limit 255 a = a) (hb : limit 255 b = b)
    (hc : limit 255 c = c) : (ofRgb ⟨a, b, c, 1⟩).argbText = String.ofList ("#ff".toList ++
      (hexByte (byteOfFloat32 a) ++ (hexByte (byteOfFloat32 b) ++ hexByte (byteOfFloat32 c)))) := by
  have halpha : hexByte (byteOfFloat32 (1 * 255)) = ['f', 'f'] := by decide +kernel
  simp only [argbText, ofRgb, ha, hb, hc, List.flatMap_cons, List.flatMap_nil, halpha,
    List.append_nil]
  rfl

/-- A numeral from 0 to 100. -/
structure Percentage where
  text : List Char
  number : Decimal
  reads : Numeral.read? text = some (.finite number)
  low : 0 ≤ number.value
  high : number.value ≤ 100

namespace Percentage

/-- The percentage with its sign. -/
def signed (p : Percentage) : List Char := p.text ++ ['%']

/-- The byte `x` is the number of the percentage itself, rounded, and from one percent on it is not its
share of 255. -/
structure IsByte (p : Percentage) (x : ℕ) : Prop where
  number : |(x : ℚ) - p.number.value| ≤ 1 / 2 + 1 / 2 ^ 17
  not_share : 1 ≤ p.number.value → 1 / 2 < |(x : ℚ) - 255 * p.number.value / 100|

variable (p : Percentage)

theorem near : Near p.number.value p.number.toFloat32.toModel.unpack :=
  Decimal.near_toFloat32 p.low (by linarith [p.high])

theorem isByte : p.IsByte (byteOfFloat32 p.number.toFloat32) := by
  have hbyte := p.near.byteOfFloat32 (by linarith [p.high])
  refine ⟨hbyte, fun hone => ?_⟩
  rw [lt_abs]
  right
  linarith [(abs_le.1 hbyte).2]

theorem isChannel : IsChannel (p.text.map Char.toLower) p.number.toFloat32 ∧
    IsChannel (p.signed.map Char.toLower) p.number.toFloat32 := by
  have hreads : Numeral.read? (p.text.map Char.toLower) = some (.finite p.number) :=
    (Numeral.read?_toLower p.text).trans p.reads
  have hsigned : p.signed.map Char.toLower = p.text.map Char.toLower ++ ['%'] := List.map_append
  rw [hsigned]
  exact isChannel_numeral hreads

end Percentage

/-- A color function of percentages is the same color as without its percent signs, and each of its bytes
is the number of the percentage and no share of 255. -/
theorem parse_percentages (g : Gaps) (p q r : Percentage) : ∃ c x y z,
    parse (String.ofList (g.rgb p.signed q.signed r.signed)) = .ok c ∧
    parse (String.ofList (g.rgb p.text q.text r.text)) = .ok c ∧
    c.argbText = String.ofList ("#ff".toList ++ (hexByte x ++ (hexByte y ++ hexByte z))) ∧
    p.IsByte x ∧ q.IsByte y ∧ r.IsByte z := by
  have hlimit (p : Percentage) : limit 255 p.number.toFloat32 = p.number.toFloat32 :=
    limit_of_near p.near (by linarith [p.high])
  refine ⟨_, _, _, _, ?_, ?_, argbText_ofRgb (hlimit p) (hlimit q) (hlimit r), p.isByte, q.isByte,
    r.isByte⟩
  · exact g.parse_rgb p.isChannel.2 q.isChannel.2 r.isChannel.2
  · exact g.parse_rgb p.isChannel.1 q.isChannel.1 r.isChannel.1

/-- A comma and a blank between the channels. -/
def commas : Gaps :=
  ⟨[], [',', ' '], [',', ' '], [], List.all_eq_true.1 (by decide), by decide, by decide⟩

/-- The percentage of a whole number. -/
def wholePercentage (n : ℕ) (hn : n ≤ 100) (text : List Char)
    (reads : Numeral.read? text = some (.finite ⟨false, n, 0⟩)) : Percentage where
  text := text
  number := ⟨false, n, 0⟩
  reads := reads
  low := by simp [Decimal.value]
  high := by simpa [Decimal.value] using hn

/-- Neither a hundred nor twenty percent is written as its share of 255. -/
theorem parse_percentages_hundred :
    ∃ c, parse "rgb(100%, 0%, 20%)" = .ok c ∧ c.argbText = "#ff640014" := by
  have hreads : Numeral.read? "100".toList = some (.finite ⟨false, 100, 0⟩) ∧
      Numeral.read? "0".toList = some (.finite ⟨false, 0, 0⟩) ∧
      Numeral.read? "20".toList = some (.finite ⟨false, 20, 0⟩) := by decide
  obtain ⟨c, x, y, z, hparse, -, htext, hx, hy, hz⟩ := parse_percentages commas
    (wholePercentage 100 (by decide) _ hreads.1) (wholePercentage 0 (by decide) _ hreads.2.1)
    (wholePercentage 20 (by decide) _ hreads.2.2)
  have hwhole {n x : ℕ} {hn text reads} (h : (wholePercentage n hn text reads).IsByte x) : x = n := by
    have hnumber := abs_le.1 h.number
    have hvalue : (wholePercentage n hn text reads).number.value = n := by
      simp [wholePercentage, Decimal.value]
    rw [hvalue] at hnumber
    have hlow : (n : ℚ) < x + 1 := by linarith
    have hhigh : (x : ℚ) < n + 1 := by linarith
    have hle : n < x + 1 := by exact_mod_cast hlow
    have hge : x < n + 1 := by exact_mod_cast hhigh
    omega
  rw [hwhole hx, hwhole hy, hwhole hz] at htext
  exact ⟨c, hparse, htext.trans (by decide)⟩

end Color
end GradientFallback
