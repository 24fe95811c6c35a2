import PocketBasic.Keyword.Basic

/-! The keywords of the PC-1500, of the CE-150 and of the CE-158, as their manuals list them. -/

namespace PocketBasic.Keyword.Catalog

/-- A row of a manual's keyword list: name, abbreviation, code and use. -/
structure Row where
  name : String
  /-- The same as the name if there is no abbreviation. -/
  abbreviation : String
  code : UInt16
  kind : Kind

def Row.keyword (row : Row) (tier : Tier) : Keyword where
  name := row.name.toList
  abbreviation := row.abbreviation.toList
  code := row.code
  tier := tier
  kind := row.kind

def core : List Row := [
  ⟨"ABS", "AB", 0xF170, .function⟩, ⟨"ACS", "AC", 0xF174, .function⟩,
  ⟨"ASC", "ASC", 0xF160, .function⟩, ⟨"ASN", "AS", 0xF173, .function⟩,
  ⟨"ATN", "AT", 0xF175, .function⟩, ⟨"CHR$", "CH", 0xF163, .function⟩,
  ⟨"COS", "COS", 0xF17E, .function⟩, ⟨"DEG", "DEG", 0xF165, .function⟩,
  ⟨"DMS", "DM", 0xF166, .function⟩, ⟨"ERL", "ERL", 0xF053, .function⟩,
  ⟨"ERN", "ERN", 0xF052, .function⟩, ⟨"EXP", "EX", 0xF178, .function⟩,
  ⟨"INKEY$", "INK", 0xF15C, .function⟩, ⟨"INT", "INT", 0xF171, .function⟩,
  ⟨"LEFT$", "LEF", 0xF17A, .function⟩, ⟨"LEN", "LEN", 0xF164, .function⟩,
  ⟨"LN", "LN", 0xF176, .function⟩, ⟨"LOG", "LO", 0xF177, .function⟩,
  ⟨"MEM", "M", 0xF158, .function⟩, ⟨"MID$", "MI", 0xF17B, .function⟩,
  ⟨"PEEK", "PEEK", 0xF16F, .function⟩, ⟨"PEEK#", "PE", 0xF16E, .function⟩,
  ⟨"PI", "PI", 0xF15D, .function⟩, ⟨"POINT", "POI", 0xF168, .function⟩,
  ⟨"RIGHT$", "RI", 0xF172, .function⟩, ⟨"RND", "RN", 0xF17C, .function⟩,
  ⟨"SGN", "SG", 0xF179, .function⟩, ⟨"SIN", "SI", 0xF17D, .function⟩,
  ⟨"SPACE$", "SPACE$", 0xF061, .function⟩, ⟨"SQR", "SQ", 0xF16B, .function⟩,
  ⟨"STATUS", "STA", 0xF167, .function⟩, ⟨"STR$", "STR", 0xF161, .function⟩,
  ⟨"TAN", "TA", 0xF17F, .function⟩, ⟨"TIME", "TI", 0xF15B, .function⟩,
  ⟨"VAL", "V", 0xF162, .function⟩, ⟨"AREAD", "A", 0xF180, .statement⟩,
  ⟨"ARUN", "ARU", 0xF181, .statement⟩, ⟨"BEEP", "B", 0xF182, .statement⟩,
  ⟨"BREAK", "BREAK", 0xF0B3, .statement⟩, ⟨"CALL", "CA", 0xF18A, .statement⟩,
  ⟨"CHAIN", "CHA", 0xF0B2, .statement⟩, ⟨"CLEAR", "CL", 0xF187, .statement⟩,
  ⟨"CLOAD", "CLO", 0xF089, .statement⟩, ⟨"CLS", "CLS", 0xF088, .statement⟩,
  ⟨"CONSOLE", "CONSOLE", 0xF0B1, .statement⟩, ⟨"CONT", "C", 0xF183, .statement⟩,
  ⟨"CSAVE", "CS", 0xF095, .statement⟩, ⟨"CURSOR", "CU", 0xF084, .statement⟩,
  ⟨"DATA", "DA", 0xF18D, .statement⟩, ⟨"DEGREE", "DE", 0xF18C, .statement⟩,
  ⟨"DIM", "D", 0xF18B, .statement⟩, ⟨"END", "E", 0xF18E, .statement⟩,
  ⟨"ERROR", "ER", 0xF1B4, .statement⟩, ⟨"FEED", "FEED", 0xF0B0, .statement⟩,
  ⟨"FOR", "F", 0xF1A5, .statement⟩, ⟨"GOSUB", "GOS", 0xF194, .statement⟩,
  ⟨"GOTO", "G", 0xF192, .statement⟩, ⟨"GRAD", "GR", 0xF186, .statement⟩,
  ⟨"IF", "IF", 0xF196, .statement⟩, ⟨"INPUT", "I", 0xF091, .statement⟩,
  ⟨"LET", "LE", 0xF198, .statement⟩, ⟨"LF", "LF", 0xF0B6, .statement⟩,
  ⟨"LIST", "L", 0xF090, .statement⟩, ⟨"LOCK", "LOC", 0xF1B5, .statement⟩,
  ⟨"MERGE", "MER", 0xF08F, .statement⟩, ⟨"NEW", "NEW", 0xF19B, .statement⟩,
  ⟨"NEXT", "N", 0xF19A, .statement⟩, ⟨"OFF", "OFF", 0xF19E, .statement⟩,
  ⟨"ON", "O", 0xF19C, .statement⟩, ⟨"OPN", "OPN", 0xF19D, .statement⟩,
  ⟨"PAUSE", "PA", 0xF1A2, .statement⟩, ⟨"POKE", "POKE", 0xF1A1, .statement⟩,
  ⟨"POKE#", "PO", 0xF1A0, .statement⟩, ⟨"PRINT", "P", 0xF097, .statement⟩,
  ⟨"RADIAN", "RAD", 0xF1AA, .statement⟩, ⟨"RANDOM", "RA", 0xF1A8, .statement⟩,
  ⟨"READ", "REA", 0xF1A6, .statement⟩, ⟨"REM", "REM", 0xF1AB, .statement⟩,
  ⟨"RESTORE", "RES", 0xF1A7, .statement⟩, ⟨"RETURN", "RE", 0xF199, .statement⟩,
  ⟨"RUN", "R", 0xF1A4, .statement⟩, ⟨"STOP", "S", 0xF1AC, .statement⟩,
  ⟨"TAB", "TAB", 0xF0BB, .statement⟩, ⟨"TROFF", "TROF", 0xF1B0, .statement⟩,
  ⟨"TRON", "TR", 0xF1AF, .statement⟩, ⟨"UNLOCK", "UN", 0xF1B6, .statement⟩,
  ⟨"USING", "U", 0xF085, .statement⟩, ⟨"WAIT", "W", 0xF1B3, .statement⟩,
  ⟨"ZONE", "ZONE", 0xF0B4, .statement⟩, ⟨"AND", "AN", 0xF150, .operator⟩,
  ⟨"NOT", "NO", 0xF16D, .operator⟩, ⟨"OR", "OR", 0xF151, .operator⟩,
  ⟨"STEP", "STE", 0xF1AD, .other⟩, ⟨"THEN", "T", 0xF1AE, .other⟩, ⟨"TO", "TO", 0xF1B1, .other⟩]

def ce150 : List Row := [
  ⟨"COLOR", "COL", 0xF0B5, .statement⟩, ⟨"CSIZE", "CSI", 0xE680, .statement⟩,
  ⟨"GCURSOR", "GCU", 0xF093, .statement⟩, ⟨"GLCURSOR", "GL", 0xE682, .statement⟩,
  ⟨"GPRINT", "GP", 0xF09F, .statement⟩, ⟨"GRAPH", "GRAP", 0xE681, .statement⟩,
  ⟨"LCURSOR", "LCU", 0xE683, .statement⟩, ⟨"LINE", "LIN", 0xF0B7, .statement⟩,
  ⟨"LLIST", "LL", 0xF0B8, .statement⟩, ⟨"LPRINT", "LP", 0xF0B9, .statement⟩,
  ⟨"RLINE", "RL", 0xF0BA, .statement⟩, ⟨"ROTATE", "RO", 0xE685, .statement⟩,
  ⟨"SORGN", "SO", 0xE684, .statement⟩, ⟨"TEXT", "TEX", 0xE686, .statement⟩]

def ce158 : List Row := [
  ⟨"COM$", "COM$", 0xE858, .function⟩, ⟨"DEV$", "DEV$", 0xE857, .function⟩,
  ⟨"INSTAT", "INSTAT", 0xE859, .function⟩, ⟨"OUTSTAT", "OUTSTAT", 0xE880, .function⟩,
  ⟨"RINKEY$", "RINKEY$", 0xE85A, .function⟩, ⟨"DTE", "DTE", 0xE884, .statement⟩,
  ⟨"PROTOCOL", "PROTOCOL", 0xE881, .statement⟩, ⟨"RMT", "RM", 0xE7A9, .statement⟩,
  ⟨"SETCOM", "SETCOM", 0xE882, .statement⟩, ⟨"SETDEV", "SETDEV", 0xE886, .statement⟩,
  ⟨"TERMINAL", "TERMINAL", 0xE883, .statement⟩, ⟨"TRANSMIT", "TRANSMIT", 0xE885, .statement⟩,
  ⟨"TEST", "TE", 0xF0BC, .statement⟩]

def rows : Tier → List Row
  | .core => core
  | .ce150 => ce150
  | .ce158 => ce158

/-- The keywords of a tier, in the order of its manual. -/
def ofTier (tier : Tier) : List Keyword :=
  (rows tier).map (·.keyword tier)

end PocketBasic.Keyword.Catalog
