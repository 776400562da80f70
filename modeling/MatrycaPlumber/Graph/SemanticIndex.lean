import MatrycaPlumber.Graph.MarkdownBlocks
import MatrycaPlumber.Graph.MasterCatalog
import MatrycaPlumber.Text.LineSearch

/-! The semantic index section that a harvest appends to a page, and the catalog row that
is read back from a page that has one. -/
namespace Plumber.SemanticIndex

open PyText MarkdownBlocks MasterCatalog

/-- What the results below use of the case tables of the interpreter: ASCII letters are
as usual, and no table brings or takes whitespace. -/
structure TextTables extends CaseTables where
  casefold : Str → Str
  eq_ascii : ∀ p c, p.toNat < 128 → c.toNat < 128 →
    (eqIgnoreCase p c = true ↔ p.toLower = c.toLower)
  lower_ascii : ∀ s, (∀ c ∈ s, c.toNat < 128) → lower s = s.map Char.toLower
  lower_append : ∀ s t, (∀ c ∈ s, c.toNat < 128) → s.map Char.toLower <+: lower (s ++ t)
  lower_eq_nil : ∀ s, lower s = [] → s = []
  lower_isSpace : ∀ s, (∃ c ∈ lower s, isSpace c = true) ↔ ∃ c ∈ s, isSpace c = true

def semanticIndexHeading : Str := "### Matryca Semantic Index".toList

def semanticIndexHeader : Str := '-' :: ' ' :: semanticIndexHeading

def marpaDomains : List Str :=
  ["mappa".toList, "area".toList, "risorsa".toList, "progetto".toList, "archivio".toList]

/-- What the model says of a page. -/
structure BootstrapSummaryResult where
  summary : Str
  suggestedTags : List Str := []
  domain : Str := []

variable (tables : TextTables)

/-- `^\s*-\s*key\s*(.+?)\s*$` from the start of a line. -/
def bulletValue (key s : Str) : Option Str :=
  match lstrip s with
  | '-' :: rest =>
      (dropPrefixIgnoreCase? tables.toCaseTables key (lstrip rest)).bind capturedText
  | _ => none

/-- `^\s*type::\s*(\S+)\s*$` from the start of a line. -/
def typeValue (s : Str) : Option Str :=
  (dropPrefixIgnoreCase? tables.toCaseTables "type::".toList (lstrip s)).bind capturedWord

def summaryLine (content : Str) : Option Str :=
  searchLines (bulletValue tables "summary::".toList) true content

def tagsLine (content : Str) : Option Str :=
  searchLines (bulletValue tables "suggested-tags::".toList) true content

def typeLine (content : Str) : Option Str := searchLines (typeValue tables) true content

def normalizeDomain (raw : Str) : Str :=
  let value := tables.lower (strip raw)
  if value ∈ marpaDomains then value else []

/-- The domain that the first `type::` line names. -/
def typeDomain (content : Str) : Str :=
  match typeLine tables content with
  | some raw => normalizeDomain tables raw
  | none => []

/-- The texts before and after the first `sep`. -/
def partition (sep : Str) : Str → Option (Str × Str)
  | [] => none
  | c :: s =>
      match dropPrefix? sep (c :: s) with
      | some after => some ([], after)
      | none => (partition sep s).map fun parts => (c :: parts.1, parts.2)

def detectMarpaNamespace (pageTitle : Str) : Option Str :=
  ((partition ['/'] pageTitle).or (partition "___".toList pageTitle)).map fun parts =>
    tables.casefold parts.1

/-- The domain of the page by its `type::` line, or else by its title. -/
def inferDomainFromContent (pageTitle content : Str) : Str :=
  if typeDomain tables content ≠ [] then typeDomain tables content
  else
    match detectMarpaNamespace tables pageTitle with
    | some hint => if hint ∈ marpaDomains then hint else []
    | none => []

/-- `_parse_tags`. A run of whitespace only gives more chunks that are empty. -/
def parseTags (raw : Str) : List Str :=
  ((strip raw).splitOnP isSpace).filterMap fun chunk =>
    let token := lstripChars ['#'] (strip chunk)
    if token = [] then none else some (tables.lower token)

/-- The domain of the first line of the form `- type:: …`, from the part of it behind the
first `::`. -/
def bulletDomain (lines : List Str) : Str :=
  match lines.find? fun line => startsWith "- type::".toList (tables.lower (strip line)) with
  | some line => normalizeDomain tables (((partition "::".toList line).map Prod.snd).getD [])
  | none => []

def extractCatalogFieldsFromContent (content : Str) : Option CatalogEntry :=
  if ¬semanticIndexHeading <:+: content then none
  else
    match summaryLine tables content with
    | none => none
    | some raw =>
        if strip raw = [] then none
        else
          some {
            summary := strip raw
            tags := ((tagsLine tables content).map (parseTags tables)).getD []
            domain :=
              if typeDomain tables content ≠ [] then typeDomain tables content
              else bulletDomain tables ((splitlines content).take 20) }

section Section

/-- The time of the stamp, whose digits are those of `strftime`. -/
structure Stamp where
  year : Nat
  month : Nat
  day : Nat
  hour : Nat
  minute : Nat

def digit (n : Nat) : Char := Char.ofNat (48 + n % 10)

def twoDigits (n : Nat) : Str := [digit (n / 10), digit n]

/-- The format `%Y-%m-%d %H:%M UTC`. -/
def Stamp.text (stamp : Stamp) : Str :=
  twoDigits (stamp.year / 100) ++ twoDigits stamp.year ++ '-' :: twoDigits stamp.month ++
    '-' :: twoDigits stamp.day ++ ' ' :: twoDigits stamp.hour ++ ':' :: twoDigits stamp.minute ++
      " UTC".toList

/-- A tag as it is written, with a `#`. -/
def hashTag (tag : Str) : Str :=
  if startsWith ['#'] tag then tag else '#' :: lstripChars ['#'] tag

def indexSummaryLine (summary : BootstrapSummaryResult) : Str :=
  "- summary:: ".toList ++ strip summary.summary

def indexTagsLine (summary : BootstrapSummaryResult) : Str :=
  "- suggested-tags:: ".toList ++ join [' '] (summary.suggestedTags.map hashTag)

def formatMinimalIndexSection (stamp : Stamp) (summary : BootstrapSummaryResult) : Str :=
  join ['\n'] ([[], semanticIndexHeader, "- indexed-at:: ".toList ++ stamp.text,
    indexSummaryLine summary] ++
      (if summary.suggestedTags = [] then [] else [indexTagsLine summary]) ++ [[]])

/-- The text of the page after `_append_minimal_semantic_index`, which gives up on a blank
page and leaves one that has a section. -/
def appendMinimalSemanticIndex (stamp : Stamp) (prev : Str) (summary : BootstrapSummaryResult) :
    Option Str :=
  if isBlank prev then none
  else if semanticIndexHeader <:+: prev then some prev
  else some (rstripChars ['\n'] prev ++ formatMinimalIndexSection stamp summary)

end Section

/-- `[t.lstrip("#").lower() for t in tags if t.strip()]`. -/
def rowTags (tags : List Str) : List Str :=
  tags.filterMap fun tag =>
    if strip tag = [] then none else some (tables.lower (lstripChars ['#'] tag))

def catalogEntryFromHarvest (summary : Str) (tags : List Str) (domain : Str) (mtime : Int)
    (orphan : Bool) : CatalogEntry where
  summary := strip summary
  domain := normalizeDomain tables domain
  tags := rowTags tables tags
  lastMtime := mtime
  orphan := orphan

/-- The domain that a harvest stores: that of the page, or else what the model says. -/
def harvestDomain (pageTitle content : Str) (summary : BootstrapSummaryResult) : Str :=
  let domain := inferDomainFromContent tables pageTitle content
  if domain = [] ∧ summary.domain ≠ [] then normalizeDomain tables summary.domain else domain

/-- The row that `harvest_page_into_catalog` stores with an answer of the model. -/
def harvestRow (pageTitle content : Str) (summary : BootstrapSummaryResult) (mtime : Int)
    (orphan : Bool) : CatalogEntry :=
  catalogEntryFromHarvest tables summary.summary summary.suggestedTags
    (harvestDomain tables pageTitle content summary) mtime orphan

end Plumber.SemanticIndex
