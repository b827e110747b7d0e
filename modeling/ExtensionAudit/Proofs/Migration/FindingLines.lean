import ExtensionAudit.Proofs.Markup.Lines
import ExtensionAudit.Proofs.Migration.Agreement
import Mathlib.Data.List.Basic
/-
  Lines of findings. A rename reports an element under the line that the element
  carries, so every line in a report is the one on which the source has the `<` of the
  start tag that is at fault.

  Main statement: `lines_of_parse`, from the nodes of a template to the findings of a
  file that is checked.
-/

namespace ExtensionAudit

open Markup

namespace Rename

/-- What a rename reports of a place in a template: an element that it applies to, under the line
that is reached behind all that is written before it. -/
def findingAt (r : Rename) (place : Text × Node) : Option Finding :=
  place.2.element?.bind fun e =>
    if r.concerns e then
      some ((Finding.warning "" (String.ofList r.old) r.advice).atLine
        (1 + Text.lineBreaks place.1))
    else none

/-- Where the nodes carry their lines, a rename reports the places that it applies to. -/
theorem check_eq_filterMap_findingAt (r : Rename) {nodes : List Node}
    (h : ∀ p ∈ Node.placesAll [] nodes, p.2.line = 1 + Text.lineBreaks p.1) :
    r.check nodes = (Node.placesAll [] nodes).filterMap r.findingAt := by
  have hcheck : r.check nodes =
      (Node.elementsAll nodes).filterMap fun e => if r.concerns e then some (r.finding e) else none := by
    rw [check, ← List.filterMap_eq_filter, List.map_filterMap]
    refine List.filterMap_congr fun e _ => ?_
    cases hconcerns : r.concerns e <;> simp [hconcerns, Option.guard]
  rw [hcheck, ← Node.filterMap_placesAll [], List.filterMap_filterMap]
  refine List.filterMap_congr fun p hp => ?_
  obtain ⟨before, n⟩ := p
  cases n with
  | text => rfl
  | element e children =>
    have hline : e.line = 1 + Text.lineBreaks before := h _ hp
    simp [findingAt, finding, Node.element?, hline]

end Rename

namespace Markup.Document

/-- Lines are exact. Every node of a template carries the line on which it begins: one more than
the line breaks in all that is written before it, which stands in front of it in the source. So
a rename reports, in document order, the start tags that it applies to, each on its line, and a
file that is checked with renames is reported on likewise. -/
theorem lines_of_parse {source : String} {d : Document} (h : parse source = .ok d) :
    (∀ before n, (before, n) ∈ Node.placesAll [] d.nodes →
      n.line = 1 + Text.lineBreaks before ∧
        ∃ after, source.toList = before ++ (n.render ++ after)) ∧
    (∀ r : Rename, r.check d.nodes = (Node.placesAll [] d.nodes).filterMap r.findingAt) ∧
    ∀ (process : WritingProcess) (entries : List RegistryEntry) (rs : List Rename) (root : Path)
      (fs : FileSystem) (file : Path), entries.map (·.migration) = rs.map Rename.migration →
      fs.readText file = .ok source →
      (Template.treat process entries .check root fs file).findings =
        rs.flatMap fun r => ((Node.placesAll [] d.nodes).filterMap r.findingAt).map
          fun f => { f with path := Path.relativeTo root file } := by
  have hplaces := line_of_mem_places h
  have hcheck (r : Rename) :
      r.check d.nodes = (Node.placesAll [] d.nodes).filterMap r.findingAt :=
    r.check_eq_filterMap_findingAt fun p hp => (hplaces p hp).1
  refine ⟨fun before n hn => hplaces (before, n) hn, hcheck, ?_⟩
  intro process entries rs root fs file hentries hread
  have hfindings (es : List RegistryEntry) (path : String) : Template.check es path d.nodes =
      (es.map (·.migration)).flatMap fun m => (m.check d.nodes).map fun f => { f with path := path } := by
    rw [Template.check, List.flatMap_map]
  rw [Template.treat_check hread h, hfindings, hentries, List.flatMap_map]
  refine List.flatMap_congr fun r _ => ?_
  rw [← hcheck r]
  rfl

/-- A template with line breaks in a start tag and a value, in an end tag that closes nothing, in a
piece of the template language and in raw text. -/
def brokenLines : String := "a\n<b\nc='\n'></x\n>\x7b#\n#\x7d<i c/><style>\n</style></b>\n<u c>"

/-- A file system with that template alone. -/
def brokenLinesFiles : FileSystem where
  entries := [(["t.twig".toList], .file brokenLines.toUTF8 false)]
  workingDirectory := []

/-- The file is reported on under the lines of the three start tags that carry the attribute. -/
theorem lines_of_parse_broken :
    let r := Rename.attribute ['c'] ['d']
    let entries := [RegistryEntry.mk .storefront ⟨[], ""⟩ r.migration]
    ∃ d, parse brokenLines = .ok d ∧
      (Template.treat (.faultless 1) entries .check (.ofString "/") brokenLinesFiles
        (.ofString "/t.twig")).findings.map (·.line) = [some 2, some 6, some 8] := by
  intro r entries
  obtain ⟨d, hd, hlines⟩ := exists_of_any brokenLines
    (fun d => ((Node.placesAll [] d.nodes).filterMap r.findingAt).map (·.line) =
      [some 2, some 6, some 8]) (by decide +kernel)
  have hlines := of_decide_eq_true hlines
  obtain ⟨-, -, hfiles⟩ := lines_of_parse hd
  refine ⟨d, hd, ?_⟩
  rw [hfiles (.faultless 1) entries [r] (.ofString "/") brokenLinesFiles (.ofString "/t.twig") rfl
    (by rfl),
    ← hlines]
  simp

end Markup.Document

end ExtensionAudit
