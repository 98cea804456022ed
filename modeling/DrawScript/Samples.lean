import DrawScript.Document

/-!
# Sample drawings

Two small drawings as the drawing program writes them, for trying things out: one with a single
line of text, and one with a text of several lines and fonts.
-/

namespace DrawScript.Samples

/-- Lines, each closed by a line feed. -/
def ofLines (lines : List String) : String :=
  String.join (lines.map (· ++ "\n"))

/-- A drawing with one line of text. -/
def hello : String :=
  ofLines [
    "%TGIF 4.2.5",
    "state(0,37,100.000,0,0,0,16,1,9,1,1,0,0,1,0,1,0,'Courier',0,80640,0,0,1,5,0,0,1,1,0," ++
      "16,0,0,1,1,1,1,1088,1408,1,0,2880,0).",
    "%",
    "% @(#)$Header$",
    "% %W%",
    "%",
    "unit(\"1 pixel/pixel\").",
    "color_info(2,65535,0,[",
    "\t\"black\", 0, 0, 0, 0, 0, 0, 1,",
    "\t\"white\", 65535, 65535, 65535, 65535, 65535, 65535, 1",
    "]).",
    "script_frac(\"0.6\").",
    "fg_bg_colors('black','white').",
    "page(1,\"\",1,'').",
    "text('black',64,96,1,0,1,82,18,0,13,5,0,0,0,0,2,82,18,0,0,\"\",0,0,0,0,109,'',[",
    "minilines(82,18,0,0,0,0,0,[",
    "mini_line(82,13,5,0,0,0,[",
    "str_block(0,82,13,5,0,0,0,0,0,[",
    "str_seg('black','Courier',0,80640,82,13,5,0,0,0,0,0,0,0,",
    "\t\"Hello, tgif!\")])",
    "])",
    "])])."]

/-- A drawing with a box and two texts. -/
def multiline : String :=
  ofLines [
    "%TGIF 4.2.5",
    "state(0,37,100.000,0,0,0,16,1,9,1,1,0,0,1,0,1,0,'Courier',0,80640,0,0,1,5,0,0,1,1,0," ++
      "16,0,0,1,1,1,1,1088,1408,1,0,2880,0).",
    "page(1,\"\",1,'').",
    "box('black','',32,32,256,160,0,1,1,0,0,0,0,0,0,'1',0,[",
    "]).",
    "text('black',48,48,2,0,1,120,36,1,13,5,0,0,0,0,2,120,36,0,0,\"\",0,0,0,0,61,'',[",
    "minilines(120,36,0,0,0,0,0,[",
    "mini_line(120,13,5,0,0,0,[",
    "str_block(0,52,13,5,0,0,0,0,0,[",
    "str_seg('black','Courier',0,80640,52,13,5,0,0,0,0,0,0,0,",
    "\t\"First\")]),",
    "str_block(0,60,13,5,0,0,0,0,0,[",
    "str_seg('black','Courier-Bold',1,80640,60,13,5,0,0,0,0,0,0,0,",
    "\t\"words\")])",
    "]),",
    "mini_line(96,13,5,0,0,0,[",
    "str_block(0,96,13,5,0,0,0,0,0,[",
    "str_seg('black','Courier',0,80640,96,13,5,0,0,0,0,0,0,0,",
    "\t\"second line\")])",
    "])",
    "])]).",
    "text('red',48,120,1,0,1,40,18,3,13,5,0,0,0,0,2,40,18,0,0,\"\",0,0,0,0,133,'',[",
    "minilines(40,18,0,0,0,0,0,[",
    "mini_line(40,13,5,0,0,0,[",
    "str_block(0,40,13,5,0,0,0,0,0,[",
    "str_seg('red','Courier',0,80640,40,13,5,0,0,0,0,0,0,0,",
    "\t\"It's \\\"quoted\\\"\")])",
    "])",
    "])])."]

/-- All samples by name. -/
def all : List (String × String) :=
  [("hello.obj", hello), ("multiline.obj", multiline)]

/-- The names of the samples. -/
def names : List String :=
  all.map (·.1)

/-- The source text of a sample. -/
def source? (name : String) : Option String :=
  all.lookup name

/-- A parsed sample, or a message that there is none of that name. -/
def document (name : String) : Except String Document :=
  match source? name with
  | some source => .ok (.ofSource source)
  | none =>
    .error ("No sample named " ++ name ++ " (have: " ++ Text.quotedList names ++ ")")

end DrawScript.Samples
